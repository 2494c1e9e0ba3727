import FluxKV.Machine.Run
import FluxKV.Tuner.Pools

/-! # The thread tuner

At the end of each window the tuner continues the trial that is in flight, or starts one: it changes the size of one
pool and after some windows keeps the change or takes it back. The measurements are floating-point numbers, and all
that `decide` does with them is compare them. The answers are part of the window and may be anything, so that no run
of the code is left out; sizes, steps, caps, counters and back-offs are computed as in the code.
-/

namespace FluxKV.Tuner

structure TunerConfig where
  rampAfterKept : ℕ := 2
  settleWindows : ℕ := 1
  maxSettleWindows : ℕ := 15
  firstBackoffWindows : ℕ := 8
  maxBackoffWindows : ℕ := 256

inductive Trial where
  | none
  | grow
  | shrink
deriving DecidableEq, Repr

/-- How `lastAction` ends. -/
inductive Verdict where
  | kept
  | reverted
  | abandoned
deriving DecidableEq, Repr

/-- Retry state for one direction of one pool. -/
structure Direction where
  /-- The largest step to try next, `0` if there is no limit. -/
  cap : ℕ := 0
  backoff : ℕ := 0
  nextBackoff : ℕ := 0
  keptStreak : ℕ := 0
  lastGained : Bool := false
deriving DecidableEq, Repr

structure PoolState where
  pool : Pool
  bounds : Bounds
  trial : Trial := .none
  sizeBefore : ℕ := 0
  lastTrialGrew : Bool := false
  measure : ℕ := 0
  /-- The number of windows in `tputWindows`. -/
  tputWindows : ℕ := 0
  windowsSinceChange : ℕ := 0
  settledWindows : ℕ := 0
  grow : Direction := {}
  shrink : Direction := {}
  verdict : Option Verdict := .none
deriving DecidableEq, Repr

/-- What the comparisons of measured values answer for one pool. -/
structure Readings where
  /-- The load has moved since the direction failed. -/
  growMoved : Bool
  shrinkMoved : Bool
  /-- `busyMean` is above `highBusy`, and at least `rampBusy` and `peggedBusy`. -/
  highBusy : Bool
  rampBusy : Bool
  peggedBusy : Bool
  /-- Without this many threads the pool would be at least `highBusy`. -/
  asksAgain : ℕ → Bool
  /-- How many windows a trial that starts now is measured. -/
  measure : ℕ
  /-- `Settled()`. -/
  settled : Bool
  /-- The verdict on a trial, and whether it raised the throughput beyond the noise. -/
  keep : Bool
  gained : Bool

/-- What one call of `decide` gets to see. -/
structure Window where
  /-- The throughput is positive. -/
  loaded : Bool
  /-- It is less than half the steady level. -/
  deep : Bool
  /-- The last two steady windows are apart by more than the noise, and the last one is the higher. -/
  apart : Bool
  rising : Bool
  readings : ℕ → Readings

def roundToStep (n step : ℕ) : ℕ := if 0 < step then n / step * step else n

namespace Direction

/-- A back-off counts down, and ends early when the load has moved. -/
def closeWindow (dir : Direction) (ended : Bool) : Direction :=
  if dir.backoff = 0 then dir
  else if ended then { dir with backoff := 0, nextBackoff := 0 }
  else { dir with backoff := dir.backoff - 1 }

def kept (dir : Direction) (gained : Bool) : Direction :=
  { dir with cap := 0, nextBackoff := 0, keptStreak := dir.keptStreak + 1, lastGained := gained }

/-- Retry at half the step; once the smallest step fails, back off. -/
def failed (cfg : TunerConfig) (dir : Direction) (delta step : ℕ) : Direction :=
  if step < delta then
    { dir with cap := max step (roundToStep (delta / 2) step), keptStreak := 0, lastGained := false }
  else
    let next := if dir.nextBackoff = 0 then cfg.firstBackoffWindows else dir.nextBackoff
    { cap := step, backoff := next, nextBackoff := min (next * 2) cfg.maxBackoffWindows, keptStreak := 0,
      lastGained := false }

/-- A quarter of the pool, more after several kept steps, and not more than the cap. -/
def quarter (cfg : TunerConfig) (dir : Direction) (grows ramps : Bool) (size step : ℕ) : ℕ :=
  let n := max step (roundToStep (size / 4) step)
  let n :=
    if cfg.rampAfterKept ≤ dir.keptStreak ∧ ramps then
      let mult := if grows ∧ cfg.rampAfterKept + 1 ≤ dir.keptStreak then 4 else 2
      max n (roundToStep (size / 4 * mult) step)
    else n
  if 0 < dir.cap then min n dir.cap else n

end Direction

/-- The loop that makes a shrink smaller while the pool would ask for threads again; `fuel` bounds its iterations. -/
def lower (step : ℕ) (asksAgain : ℕ → Bool) : ℕ → ℕ → ℕ
  | 0, n => n
  | fuel + 1, n => if step < n ∧ asksAgain n then lower step asksAgain fuel (n - step) else n

namespace PoolState

variable (cfg : TunerConfig) (ps : PoolState) (r : Readings)

/-- `std::max<size_t>(1, pool->Step())`. -/
def step : ℕ := max 1 ps.pool.step

def closeWindow (steady : Bool) : PoolState :=
  let windows := ps.windowsSinceChange + 1
  { ps with
    windowsSinceChange := windows
    grow := ps.grow.closeWindow (steady && decide (2 ≤ windows) && r.growMoved)
    shrink := ps.shrink.closeWindow (steady && decide (2 ≤ windows) && r.shrinkMoved) }

def probeShrink : Bool :=
  r.highBusy && ps.lastTrialGrew && !ps.grow.lastGained && decide (ps.shrink.backoff = 0) &&
    decide (ps.bounds.min < ps.pool.size)

def wantGrow : Bool :=
  !ps.probeShrink r && r.highBusy && decide (ps.grow.backoff = 0) && decide (ps.pool.size < ps.bounds.max)

def wantShrink : Bool :=
  !ps.wantGrow r && decide (ps.shrink.backoff = 0) && decide (ps.bounds.min < ps.pool.size) &&
    (!r.highBusy || decide (0 < ps.grow.backoff) || ps.probeShrink r)

def growBy : ℕ :=
  min (ps.grow.quarter cfg true r.rampBusy ps.pool.size ps.step) (ps.bounds.max - ps.pool.size)

/-- `0` also where the step would make the pool ask for threads again. -/
def shrinkBy : ℕ :=
  let size := ps.pool.size
  let n := min (ps.shrink.quarter cfg false ps.shrink.lastGained size ps.step) (size - ps.bounds.min)
  let n := if r.peggedBusy ∧ ¬ ps.shrink.lastGained then min n (roundToStep (size / 4) ps.step) else n
  if ps.grow.backoff = 0 ∧ ¬ ps.shrink.lastGained ∧ ¬ ps.probeShrink r then
    let n := lower ps.step r.asksAgain n n
    if r.asksAgain n then 0 else n
  else n

/-- A trial is in flight; `pool` has the new size. -/
def trying (trial : Trial) (pool : Pool) : PoolState :=
  { ps with
    pool := pool
    trial := trial
    sizeBefore := ps.pool.size
    measure := r.measure
    tputWindows := 0
    windowsSinceChange := 0
    settledWindows := 0
    verdict := .none }

def startTrial : Option PoolState :=
  if ps.wantGrow r then
    let n := ps.growBy cfg r
    if n = 0 then none else some (ps.trying r .grow (ps.pool.grow n))
  else if ps.wantShrink r then
    let n := ps.shrinkBy cfg r
    if n = 0 then none else some (ps.trying r .shrink (ps.pool.shrink n))
  else none

/-- The pool with the change of the trial taken back. The differences are never negative: a grow does not make a pool
smaller and a shrink does not make it larger. -/
def undo : Pool :=
  match ps.trial with
  | .grow => ps.pool.shrink (ps.pool.size - ps.sizeBefore)
  | _ => ps.pool.grow (ps.sizeBefore - ps.pool.size)

def abandon : PoolState :=
  { ps with pool := ps.undo, trial := .none, windowsSinceChange := 0, verdict := some .abandoned }

/-- The direction of the trial is told how it went. -/
def learn (grew : Bool) (change : Direction → Direction) : PoolState :=
  if grew then { ps with grow := change ps.grow } else { ps with shrink := change ps.shrink }

def judge : PoolState :=
  let size := ps.pool.size
  let grew := decide (ps.trial = .grow)
  let delta := if grew then size - ps.sizeBefore else ps.sizeBefore - size
  if r.keep then
    { ps.learn grew (·.kept r.gained) with
      lastTrialGrew := grew, trial := .none, windowsSinceChange := 0, verdict := some .kept }
  else
    { ps.learn grew (·.failed cfg delta ps.step) with
      pool := ps.undo, lastTrialGrew := grew, trial := .none, windowsSinceChange := 0, verdict := some .reverted }

/-- A window of the trial in flight. -/
def continueTrial (loaded : Bool) : PoolState :=
  if ps.settledWindows = 0 ∧ ¬ r.settled ∧ ps.windowsSinceChange < cfg.maxSettleWindows then ps
  else if ¬ loaded then
    let ps := { ps with tputWindows := 0, settledWindows := 0 }
    if cfg.maxSettleWindows < ps.windowsSinceChange then ps.abandon else ps
  else
    let ps := { ps with settledWindows := ps.settledWindows + 1 }
    if cfg.settleWindows < ps.settledWindows then
      let ps := { ps with tputWindows := ps.tputWindows + 1 }
      if ps.measure ≤ ps.tputWindows then ps.judge cfg r else ps
    else ps

/-- The last trial raised the throughput and the pool can go on the same way. -/
def hasMomentum : Bool :=
  decide (ps.trial = .none) &&
    if ps.lastTrialGrew then
      ps.grow.lastGained && decide (ps.grow.backoff = 0) && decide (ps.pool.size < ps.bounds.max)
    else
      ps.shrink.lastGained && decide (ps.shrink.backoff = 0) && decide (ps.bounds.min < ps.pool.size)

/-- The pool keeps every step it is given and is still pegged. -/
def ramping : Bool :=
  decide (ps.trial = .none) && decide (ps.grow.backoff = 0) && decide (cfg.rampAfterKept ≤ ps.grow.keptStreak) &&
    r.rampBusy && decide (ps.pool.size < ps.bounds.max)

end PoolState

def kSteadyHistory : ℕ := 16

def kLevelWindows : ℕ := 4

structure ThreadTuner where
  pools : List PoolState
  nextPool : ℕ := 0
  /-- The number of windows in `steadyRecent_`. -/
  steadyRecent : ℕ := 0
  stepLow : ℕ := 0
deriving DecidableEq, Repr

/-- The IO loops the tuner is given. -/
def Options.ioPool (o : Options) (hardwareConcurrency : ℕ) : PoolState where
  pool := .io o.ioThreads
  bounds := o.ioBounds hardwareConcurrency

/-- The pools of a role the tuner is given. -/
def Options.poolGroup (o : Options) (hardwareConcurrency : ℕ) (role : Role) : PoolState where
  pool := .sharded role (Bucket.perShard (o.threads role) o.shards)
  bounds := o.bounds hardwareConcurrency role

/-- `Server::EnableAutoTune`. -/
def enableAutoTune (o : Options) (hardwareConcurrency : ℕ) : ThreadTuner where
  pools := [o.ioPool hardwareConcurrency, o.poolGroup hardwareConcurrency .readers,
    o.poolGroup hardwareConcurrency .writers]

namespace ThreadTuner

variable (cfg : TunerConfig) (s : ThreadTuner) (w : Window)

/-- The history of steady windows. A window without load, or the second deep one in a row, clears it. -/
def noteSteady : ThreadTuner :=
  let stepLow := if 0 < s.steadyRecent ∧ w.deep then s.stepLow + 1 else 0
  let cleared := ¬ w.loaded ∨ 2 ≤ stepLow
  let recent := (if cleared then 0 else s.steadyRecent) + if w.loaded then 1 else 0
  { s with
    steadyRecent := if kSteadyHistory < recent then recent - 1 else recent
    stepLow := if cleared then 0 else stepLow }

/-- The first pool, in the given order, that is ready and starts a trial. -/
def firstStart (ready : PoolState → Bool) (order : List ℕ) : Option (ℕ × PoolState) :=
  order.findSome? fun i => (s.pools[i]?).bind fun ps =>
    if ready ps then (ps.startTrial cfg (w.readings i)).map (i, ·) else none

def rampingUp : Bool :=
  s.pools.zipIdx.any fun (ps, i) => ps.ramping cfg (w.readings i) || ps.hasMomentum

/-- Pools are taken in turn, but one whose last step gained goes first. -/
def startTrials : ThreadTuner :=
  match s.firstStart cfg w (fun ps => ps.hasMomentum && decide (1 ≤ ps.windowsSinceChange))
      (List.range s.pools.length) with
  | some (i, ps) => { s with pools := s.pools.set i ps }
  | none =>
    match s.firstStart cfg w (fun ps => decide (2 ≤ ps.windowsSinceChange))
        ((List.range s.pools.length).map fun i => (s.nextPool + i) % s.pools.length) with
    | some (i, ps) => { s with pools := s.pools.set i ps, nextPool := (i + 1) % s.pools.length }
    | none => s

/-- No trial is in flight. -/
def steady : Bool := s.pools.all fun ps => ps.trial = .none

def closeWindows : ThreadTuner :=
  let noted := if s.steady then s.noteSteady w else s
  { noted with pools := s.pools.mapIdx fun i (ps : PoolState) => ps.closeWindow (w.readings i) s.steady }

def decide : ThreadTuner :=
  let s := s.closeWindows w
  match s.pools.findIdx? fun (ps : PoolState) => ps.trial ≠ .none with
  | some i => { s with pools := s.pools.modify i fun (ps : PoolState) => ps.continueTrial cfg (w.readings i) w.loaded }
  | none =>
    if s.steadyRecent < kLevelWindows then s
    else if w.apart ∧ ¬ (w.rising ∧ s.rampingUp cfg w) then s
    else s.startTrials cfg w

/-- `decide` as a machine that takes every window. -/
def step : Option ThreadTuner := some (s.decide cfg w)

end ThreadTuner

/-! ## What a window does to one pool -/

/-- A pool whose window is closed is left alone, starts a trial, or goes on with the one in flight. -/
inductive PoolState.Turn (cfg : TunerConfig) (r : Readings) (ps : PoolState) : PoolState → Prop where
  | rest : Turn cfg r ps ps
  | start {next : PoolState} (idle : ps.trial = .none) (started : ps.startTrial cfg r = some next) : Turn cfg r ps next
  | resume (inFlight : ps.trial ≠ .none) (loaded : Bool) : Turn cfg r ps (ps.continueTrial cfg r loaded)

theorem dvd_roundToStep {step : ℕ} (some : 0 < step) (n : ℕ) : step ∣ roundToStep n step := by
  rw [roundToStep, if_pos some]
  exact Nat.dvd_mul_left ..

private theorem dvd_max {unit m n : ℕ} (first : unit ∣ m) (second : unit ∣ n) : unit ∣ max m n := by
  rcases max_choice m n with same | same <;> rwa [same]

private theorem dvd_min {unit m n : ℕ} (first : unit ∣ m) (second : unit ∣ n) : unit ∣ min m n := by
  rcases min_choice m n with same | same <;> rwa [same]

namespace Direction

variable {cfg : TunerConfig} {dir : Direction} {step : ℕ}

theorem cap_closeWindow (ended : Bool) : (dir.closeWindow ended).cap = dir.cap := by
  unfold closeWindow
  split_ifs <;> rfl

theorem dvd_cap_failed (some : 0 < step) (delta : ℕ) : step ∣ (dir.failed cfg delta step).cap := by
  unfold failed
  split
  · exact dvd_max dvd_rfl (dvd_roundToStep some _)
  · exact dvd_rfl

theorem dvd_quarter (some : 0 < step) (whole : step ∣ dir.cap) (grows ramps : Bool) (size : ℕ) :
    step ∣ dir.quarter cfg grows ramps size step := by
  have quarter := dvd_max dvd_rfl (dvd_roundToStep some (size / 4))
  have more : ∀ mult, step ∣ max (max step (roundToStep (size / 4) step)) (roundToStep (size / 4 * mult) step) :=
    fun mult => dvd_max quarter (dvd_roundToStep some _)
  unfold Direction.quarter
  dsimp only
  split_ifs
  all_goals first
    | exact more _
    | exact quarter
    | exact dvd_min (more _) whole
    | exact dvd_min quarter whole

end Direction

theorem lower_le (step : ℕ) (asksAgain : ℕ → Bool) (fuel n : ℕ) : lower step asksAgain fuel n ≤ n := by
  induction fuel generalizing n with
  | zero => exact le_rfl
  | succ fuel ih =>
    unfold lower
    split
    · exact (ih _).trans (Nat.sub_le ..)
    · exact le_rfl

theorem dvd_lower {step : ℕ} (asksAgain : ℕ → Bool) (fuel : ℕ) {n : ℕ} (whole : step ∣ n) :
    step ∣ lower step asksAgain fuel n := by
  induction fuel generalizing n with
  | zero => exact whole
  | succ fuel ih =>
    unfold lower
    split
    · exact ih (Nat.dvd_sub whole dvd_rfl)
    · exact whole

/-- With as much fuel as threads, the loop ends where its condition is false. -/
theorem lower_done {step : ℕ} (some : 0 < step) (asksAgain : ℕ → Bool) {fuel n : ℕ} (enough : n ≤ fuel) :
    ¬ (step < lower step asksAgain fuel n ∧ asksAgain (lower step asksAgain fuel n)) := by
  induction fuel generalizing n with
  | zero =>
    rintro ⟨more, _⟩
    exact absurd (more.trans_le enough) (Nat.not_lt_zero step)
  | succ fuel ih =>
    unfold lower
    split
    · exact ih (by omega)
    · next done => exact done

namespace PoolState

variable {cfg : TunerConfig} {ps next : PoolState} {r : Readings}

theorem step_pos (ps : PoolState) : 0 < ps.step := Nat.le_max_left ..

theorem growBy_le (cfg : TunerConfig) (ps : PoolState) (r : Readings) :
    ps.growBy cfg r ≤ ps.bounds.max - ps.pool.size := Nat.min_le_right ..

theorem shrinkBy_le (cfg : TunerConfig) (ps : PoolState) (r : Readings) :
    ps.shrinkBy cfg r ≤ ps.pool.size - ps.bounds.min := by
  unfold shrinkBy
  dsimp only
  generalize ps.shrink.quarter cfg false ps.shrink.lastGained ps.pool.size ps.step = quarter
  have room := Nat.min_le_right quarter (ps.pool.size - ps.bounds.min)
  split_ifs
  all_goals first
    | exact Nat.zero_le _
    | exact (lower_le ..).trans ((Nat.min_le_left ..).trans room)
    | exact (lower_le ..).trans room
    | exact (Nat.min_le_left ..).trans room
    | exact room

/-- Where the cap and the room are whole steps, so is the change. -/
theorem dvd_growBy (cap : ps.step ∣ ps.grow.cap) (room : ps.step ∣ ps.bounds.max - ps.pool.size) :
    ps.step ∣ ps.growBy cfg r :=
  dvd_min (Direction.dvd_quarter ps.step_pos cap ..) room

theorem dvd_shrinkBy (cap : ps.step ∣ ps.shrink.cap) (room : ps.step ∣ ps.pool.size - ps.bounds.min) :
    ps.step ∣ ps.shrinkBy cfg r := by
  have quarter : ps.step ∣ ps.shrink.quarter cfg false ps.shrink.lastGained ps.pool.size ps.step :=
    Direction.dvd_quarter ps.step_pos cap ..
  have whole := dvd_min quarter room
  have pegged := dvd_min whole (dvd_roundToStep ps.step_pos (ps.pool.size / 4))
  unfold shrinkBy
  dsimp only
  split_ifs
  all_goals first
    | exact Nat.dvd_zero _
    | exact dvd_lower _ _ pegged
    | exact dvd_lower _ _ whole
    | exact pegged
    | exact whole

/-- A trial starts in a direction in which there is room. -/
theorem startTrial_cases (started : ps.startTrial cfg r = some next) :
    (ps.pool.size < ps.bounds.max ∧ 0 < ps.growBy cfg r ∧
        next = ps.trying r .grow (ps.pool.grow (ps.growBy cfg r))) ∨
      (ps.bounds.min < ps.pool.size ∧ 0 < ps.shrinkBy cfg r ∧
        next = ps.trying r .shrink (ps.pool.shrink (ps.shrinkBy cfg r))) := by
  unfold startTrial at started
  dsimp only at started
  split_ifs at started with wantGrow _ wantShrink _
  · simp only [PoolState.wantGrow, Bool.and_eq_true, decide_eq_true_eq] at wantGrow
    exact .inl ⟨wantGrow.2, by omega, (Option.some.inj started).symm⟩
  · simp only [PoolState.wantShrink, Bool.and_eq_true, decide_eq_true_eq] at wantShrink
    exact .inr ⟨wantShrink.1.2, by omega, (Option.some.inj started).symm⟩

/-- A window of a trial counts, and may end the trial. -/
theorem continueTrial_cases (cfg : TunerConfig) (ps : PoolState) (r : Readings) (loaded : Bool) : ∃ windows settled : ℕ,
    let counted := { ps with tputWindows := windows, settledWindows := settled }
    ps.continueTrial cfg r loaded = counted ∨ ps.continueTrial cfg r loaded = counted.abandon ∨
      ps.continueTrial cfg r loaded = counted.judge cfg r := by
  unfold continueTrial
  split
  · exact ⟨_, _, .inl rfl⟩
  · split
    · dsimp only
      split
      · exact ⟨_, _, .inr (.inl rfl)⟩
      · exact ⟨_, _, .inl rfl⟩
    · dsimp only
      split
      · split
        · exact ⟨_, _, .inr (.inr rfl)⟩
        · exact ⟨_, _, .inl rfl⟩
      · exact ⟨_, _, .inl rfl⟩

end PoolState

namespace ThreadTuner

variable {cfg : TunerConfig} {s : ThreadTuner} {w : Window} {i : ℕ} {next : PoolState}

theorem started_of_firstStart {ready : PoolState → Bool} {order : List ℕ}
    (found : s.firstStart cfg w ready order = some (i, next)) :
    ∃ ps, s.pools[i]? = some ps ∧ ps.startTrial cfg (w.readings i) = some next := by
  obtain ⟨j, _, found⟩ := List.exists_of_findSome?_eq_some found
  obtain ⟨ps, here, found⟩ := Option.bind_eq_some_iff.mp found
  split at found
  · obtain ⟨_, started, same⟩ := Option.map_eq_some_iff.mp found
    cases same
    exact ⟨ps, here, started⟩
  · cases found

theorem length_decide : (s.decide cfg w).pools.length = s.pools.length := by
  have closed : (s.closeWindows w).pools.length = s.pools.length := List.length_mapIdx
  rw [← closed]
  unfold decide
  dsimp only
  split
  · exact List.length_modify ..
  · split_ifs
    · rfl
    · rfl
    · unfold startTrials
      split
      · exact List.length_set
      · split
        · exact List.length_set
        · rfl

/-- A pool that has taken a turn stands where it was. -/
private theorem turn_set {j : ℕ} {ps started : PoolState} (idle : ∀ ps ∈ s.pools, ps.trial = .none)
    (here : s.pools[j]? = some ps) (start : ps.startTrial cfg (w.readings j) = some started)
    (found : (s.pools.set j started)[i]? = some next) :
    ∃ ps, s.pools[i]? = some ps ∧ ps.Turn cfg (w.readings i) next := by
  rcases eq_or_ne j i with rfl | other
  · rw [List.getElem?_set_self (List.getElem?_eq_some_iff.mp here).1] at found
    cases found
    exact ⟨ps, here, .start (idle ps (List.mem_of_getElem? here)) start⟩
  · rw [List.getElem?_set_ne other] at found
    exact ⟨next, found, .rest⟩

private theorem turn_of_startTrials (idle : ∀ ps ∈ s.pools, ps.trial = .none)
    (found : (s.startTrials cfg w).pools[i]? = some next) :
    ∃ ps, s.pools[i]? = some ps ∧ ps.Turn cfg (w.readings i) next := by
  unfold startTrials at found
  split at found
  · next j started first =>
    obtain ⟨ps, here, start⟩ := started_of_firstStart first
    exact turn_set idle here start found
  · split at found
    · next j started first =>
      obtain ⟨ps, here, start⟩ := started_of_firstStart first
      exact turn_set idle here start found
    · exact ⟨next, found, .rest⟩

/-- What a pool has become by the end of a window. -/
theorem turn_of_decide (found : (s.decide cfg w).pools[i]? = some next) :
    ∃ ps, s.pools[i]? = some ps ∧ (ps.closeWindow (w.readings i) s.steady).Turn cfg (w.readings i) next := by
  -- the pools stand where they were when their windows were closed
  suffices closed : ∃ ps, (s.closeWindows w).pools[i]? = some ps ∧ ps.Turn cfg (w.readings i) next by
    obtain ⟨ps, here, turn⟩ := closed
    rw [closeWindows, List.getElem?_mapIdx] at here
    obtain ⟨opened, there, rfl⟩ := Option.map_eq_some_iff.mp here
    exact ⟨opened, there, turn⟩
  unfold decide at found
  generalize s.closeWindows w = closed at found ⊢
  dsimp only at found
  split at found
  · next j first =>
    obtain ⟨inside, inFlight, _⟩ := List.findIdx?_eq_some_iff_getElem.mp first
    obtain ⟨ps, here, rfl⟩ := Option.map_eq_some_iff.mp (List.getElem?_modify _ j _ i ▸ found)
    refine ⟨ps, here, ?_⟩
    split
    · next same =>
      obtain rfl := same
      obtain ⟨_, rfl⟩ := List.getElem?_eq_some_iff.mp here
      exact .resume (of_decide_eq_true inFlight) _
    · exact .rest
  · next none =>
    have idle : ∀ ps ∈ closed.pools, ps.trial = .none := by
      simpa using List.findIdx?_eq_none_iff.mp none
    split_ifs at found
    · exact ⟨next, found, .rest⟩
    · exact ⟨next, found, .rest⟩
    · exact turn_of_startTrials idle found

end ThreadTuner

end FluxKV.Tuner
