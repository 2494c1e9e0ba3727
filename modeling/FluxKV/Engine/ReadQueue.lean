import FluxKV.Machine.Calls
import FluxKV.Machine.Run
import FluxKV.ToMathlib.Counting

/-! # The readers of a vbucket

`EnqueueRead` pushes a GET onto the vbucket's list, counts it, and starts a reader task unless there are owners
enough. A reader that has taken a task collects a batch: first from the overflow, then from one sweep of the list;
what is past the cap goes to the overflow. It then serves the batch and releases the vbucket, which may start a task
again. A call of `EnqueueRead` and a task in a reader's hands are calls in progress, in any number; each access to a
shared variable, queue or locked section is one event. Whether a reader has taken one task or several, and whether
it releases the vbucket before or after the batch is answered, makes no difference to the accesses.
-/

namespace FluxKV.Engine.ReadQueue

open Machine Counting

/-- Neither setting is zero. With `--max-read-batch 0`, which nothing refuses, a round would collect nothing and put
all it swept back. -/
structure Config where
  gMaxReadOwners : ℕ
  gMaxReadBatch : ℕ
  owners_pos : 0 < gMaxReadOwners
  batch_pos : 0 < gMaxReadBatch

/-- Where a call stands. `start` is how many GETs had been pushed when the round began. -/
inductive Call (ρ : Type*) where
  | done
  /-- `EnqueueRead`: before `readDepth.fetch_add`, before the load of `readOwners`, before its exchange, and before
  the task is submitted. -/
  | pushed
  | counted (depth : ℤ)
  | arming (depth : ℤ) (owners : ℕ)
  | submitting
  /-- `collectRead`: before the overflow is drained, before the sweep, before the excess is put back, before
  `readDepth.fetch_sub`; then the batch is served. -/
  | holding
  | drained (start : ℕ) (batch : List ρ)
  | spilling (start : ℕ) (batch : List ρ)
  | accounting (start : ℕ) (batch : List ρ)
  | serving (batch : List ρ)
  /-- `releaseReadVBQueue`: before `readOwners.fetch_sub`, before the look at the overflow, at the list, at
  `readDepth`, before the load of `readOwners`, before its exchange, and before the task is submitted. -/
  | releasing
  | stepped
  | noOverflow
  | nothing
  | rearm
  | rearming (owners : ℕ)
  | resubmitting
deriving DecidableEq, Repr

/-- A batch that was collected: how many GETs had been pushed when its round began and when it was accounted. -/
structure Round (ρ : Type*) where
  start : ℕ
  finish : ℕ
  batch : List ρ
deriving DecidableEq, Repr

/-- The read fields of the `VBQueue`, its tasks in the task queue and the calls in progress. The last three fields
record what happened: the GETs in the order of their pushes, how many earlier ones were in no batch at the push
of each, and the batches. -/
structure State (ρ : Type*) where
  list : List ρ
  readOwners : ℕ
  readDepth : ℤ
  overflow : List ρ
  taskQueue : ℕ
  calls : List (Call ρ)
  pushes : List ρ
  behind : List ℕ
  rounds : List (Round ρ)

def State.initial {ρ : Type*} : State ρ := ⟨[], 0, 0, [], 0, [], [], [], []⟩

/-- One access of one thread. -/
inductive Event (ρ : Type*) where
  /-- `list.insertHead`. -/
  | push (req : ρ)
  /-- `readDepth.fetch_add`. -/
  | count (i : ℕ)
  /-- `readOwners.load` in `EnqueueRead`. -/
  | load (i : ℕ) (depth : ℤ)
  /-- `readOwners.compare_exchange_weak` in `EnqueueRead`, which may fail for no reason. -/
  | exchange (i : ℕ) (depth : ℤ) (owners : ℕ) (ok : Bool)
  /-- `ReaderPool::Submit`. -/
  | submit (i : ℕ)
  /-- A reader takes the task. -/
  | take
  /-- The first locked section of `collectRead`. -/
  | drain (i : ℕ)
  /-- `list.sweepOnce`. -/
  | sweep (i start : ℕ) (batch : List ρ)
  /-- The second locked section. -/
  | spill (i start : ℕ) (batch : List ρ)
  /-- `readDepth.fetch_sub`. -/
  | account (i start : ℕ) (batch : List ρ)
  /-- The batch is answered, or left to an asynchronous call. -/
  | serve (i : ℕ) (batch : List ρ)
  /-- `readOwners.fetch_sub`. -/
  | stepDown (i : ℕ)
  /-- The locked look at the overflow. -/
  | lookOverflow (i : ℕ)
  /-- `list.empty()`. -/
  | lookList (i : ℕ)
  /-- `readDepth.load`. -/
  | lookDepth (i : ℕ)
  /-- `readOwners.load` in the release. -/
  | reload (i : ℕ)
  /-- `readOwners.compare_exchange_weak` in the release. -/
  | reexchange (i owners : ℕ) (ok : Bool)
  /-- `taskQueue.blockingWrite`. -/
  | resubmit (i : ℕ)
deriving DecidableEq, Repr

namespace Call

variable {ρ : Type*} (cfg : Config)

/-- With the owners it has read, `EnqueueRead` returns or tries to add one. -/
def enqueue (depth : ℤ) (owners : ℕ) : Call ρ :=
  if owners ≠ 0 ∧ (cfg.gMaxReadOwners ≤ owners ∨ depth ≤ owners * cfg.gMaxReadBatch) then done
  else arming depth owners

/-- With the owners it has read, a release returns or tries to add one. -/
def release (owners : ℕ) : Call ρ := if owners < cfg.gMaxReadOwners then rearming owners else done

/-- What is left to do with a batch for which nothing more is collected. -/
def collected (start : ℕ) (batch : List ρ) : Call ρ :=
  if batch = [] then releasing
  else if cfg.gMaxReadBatch < batch.length then spilling start batch
  else accounting start batch

/-- The list is swept only if the overflow has left room. -/
def drain (start : ℕ) (batch : List ρ) : Call ρ :=
  if batch.length < cfg.gMaxReadBatch then drained start batch else collected cfg start batch

end Call

namespace State

variable {ρ : Type*}

/-- The GETs in batches. -/
def batched (s : State ρ) : List ρ := s.rounds.flatMap Round.batch

/-- The call stands here. -/
def At (s : State ρ) (i : ℕ) (call : Call ρ) : Prop := s.calls[i]? = some call

instance [DecidableEq ρ] (s : State ρ) (i : ℕ) (call : Call ρ) : Decidable (s.At i call) :=
  inferInstanceAs (Decidable (_ = _))

/-- Whether an event can happen now. -/
def enabled [DecidableEq ρ] (s : State ρ) : Event ρ → Bool
  | .push _ => true
  | .count i => decide (s.At i .pushed)
  | .load i depth => decide (s.At i (.counted depth))
  | .exchange i depth owners ok => decide (s.At i (.arming depth owners) ∧ (ok = true → s.readOwners = owners))
  | .submit i => decide (s.At i .submitting)
  | .take => decide (0 < s.taskQueue)
  | .drain i => decide (s.At i .holding)
  | .sweep i start batch => decide (s.At i (.drained start batch))
  | .spill i start batch => decide (s.At i (.spilling start batch))
  | .account i start batch => decide (s.At i (.accounting start batch))
  | .serve i batch => decide (s.At i (.serving batch))
  | .stepDown i => decide (s.At i .releasing)
  | .lookOverflow i => decide (s.At i .stepped)
  | .lookList i => decide (s.At i .noOverflow)
  | .lookDepth i => decide (s.At i .nothing)
  | .reload i => decide (s.At i .rearm)
  | .reexchange i owners ok => decide (s.At i (.rearming owners) ∧ (ok = true → s.readOwners = owners))
  | .resubmit i => decide (s.At i .resubmitting)

/-- What an enabled event does. -/
def next (cfg : Config) (s : State ρ) : Event ρ → State ρ
  | .push req =>
    { s with
      list := req :: s.list
      calls := s.calls ++ [.pushed]
      pushes := s.pushes ++ [req]
      behind := s.behind ++ [s.pushes.length - s.batched.length] }
  | .count i =>
    { s with
      readDepth := s.readDepth + 1
      calls := s.calls.set i (.counted (s.readDepth + 1)) }
  | .load i depth => { s with calls := s.calls.set i (.enqueue cfg depth s.readOwners) }
  | .exchange i depth owners ok =>
    { s with
      readOwners := if ok then owners + 1 else s.readOwners
      calls := s.calls.set i (if ok then .submitting else .enqueue cfg depth s.readOwners) }
  | .submit i =>
    { s with
      taskQueue := s.taskQueue + 1
      calls := s.calls.set i .done }
  | .take =>
    { s with
      taskQueue := s.taskQueue - 1
      calls := s.calls ++ [.holding] }
  | .drain i =>
    { s with
      overflow := s.overflow.drop cfg.gMaxReadBatch
      calls := s.calls.set i (.drain cfg s.pushes.length (s.overflow.take cfg.gMaxReadBatch)) }
  | .sweep i start batch =>
    { s with
      list := []
      calls := s.calls.set i (.collected cfg start (batch ++ s.list.reverse)) }
  | .spill i start batch =>
    { s with
      overflow := s.overflow ++ batch.drop cfg.gMaxReadBatch
      calls := s.calls.set i (.accounting start (batch.take cfg.gMaxReadBatch)) }
  | .account i start batch =>
    { s with
      readDepth := s.readDepth - batch.length
      calls := s.calls.set i (.serving batch)
      rounds := s.rounds ++ [⟨start, s.pushes.length, batch⟩] }
  | .serve i _ => { s with calls := s.calls.set i .releasing }
  | .stepDown i =>
    { s with
      readOwners := fetchSub 32 s.readOwners 1
      calls := s.calls.set i .stepped }
  | .lookOverflow i => { s with calls := s.calls.set i (if s.overflow = [] then .noOverflow else .rearm) }
  | .lookList i => { s with calls := s.calls.set i (if s.list = [] then .nothing else .rearm) }
  | .lookDepth i => { s with calls := s.calls.set i (if s.readDepth ≤ 0 then .done else .rearm) }
  | .reload i => { s with calls := s.calls.set i (.release cfg s.readOwners) }
  | .reexchange i owners ok =>
    { s with
      readOwners := if ok then owners + 1 else s.readOwners
      calls := s.calls.set i (if ok then .resubmitting else .release cfg s.readOwners) }
  | .resubmit i =>
    { s with
      taskQueue := s.taskQueue + 1
      calls := s.calls.set i .done }

def step [DecidableEq ρ] (cfg : Config) (s : State ρ) (e : Event ρ) : Option (State ρ) :=
  if s.enabled e then some (s.next cfg e) else none

theorem step_eq_some [DecidableEq ρ] {cfg : Config} {s t : State ρ} {e : Event ρ} :
    s.step cfg e = some t ↔ s.enabled e ∧ t = s.next cfg e :=
  ite_some_eq_some.trans (and_congr_right fun _ => eq_comm)

end State

/-! ## The tasks of the vbucket -/

namespace Call

variable {ρ : Type*} {cfg : Config}

/-- A reader has a task in hand until it steps down. -/
def held : Call ρ → ℕ
  | holding | drained .. | spilling .. | accounting .. | serving _ | releasing => 1
  | done | pushed | counted _ | arming .. | submitting | stepped | noOverflow | nothing | rearm | rearming _
  | resubmitting => 0

/-- A thread that has won its exchange owes the queue a task. -/
def owed : Call ρ → ℕ
  | submitting | resubmitting => 1
  | done | pushed | counted _ | arming .. | holding | drained .. | spilling .. | accounting .. | serving _ | releasing
  | stepped | noOverflow | nothing | rearm | rearming _ => 0

def tokens (call : Call ρ) : ℕ := call.held + call.owed

/-- The owners a call means to add to leave room for one more. -/
def Fits (cfg : Config) : Call ρ → Prop
  | arming _ owners | rearming owners => owners < cfg.gMaxReadOwners
  | _ => True

@[simp] theorem tokens_enqueue (depth : ℤ) (owners : ℕ) : (enqueue cfg depth owners : Call ρ).tokens = 0 := by
  unfold enqueue
  split <;> rfl

@[simp] theorem tokens_release (owners : ℕ) : (release cfg owners : Call ρ).tokens = 0 := by
  unfold release
  split <;> rfl

@[simp] theorem tokens_collected (start : ℕ) (batch : List ρ) : (collected cfg start batch).tokens = 1 := by
  unfold collected
  split_ifs <;> rfl

@[simp] theorem tokens_drain (start : ℕ) (batch : List ρ) : (drain cfg start batch).tokens = 1 := by
  unfold drain
  split
  · rfl
  · exact tokens_collected start batch

theorem fits_enqueue (depth : ℤ) (owners : ℕ) : (enqueue cfg depth owners : Call ρ).Fits cfg := by
  unfold enqueue
  split
  · trivial
  · next adds =>
    have positive := cfg.owners_pos
    simp only [not_and_or, not_not, not_or, not_le] at adds
    rcases adds with rfl | ⟨room, _⟩
    · exact positive
    · exact room

theorem fits_release (owners : ℕ) : (release cfg owners : Call ρ).Fits cfg := by
  unfold release
  split
  · next room => exact room
  · trivial

theorem fits_collected (start : ℕ) (batch : List ρ) : (collected cfg start batch).Fits cfg := by
  unfold collected
  split_ifs <;> trivial

theorem fits_drain (start : ℕ) (batch : List ρ) : (drain cfg start batch).Fits cfg := by
  unfold drain
  split
  · trivial
  · exact fits_collected start batch

end Call

namespace State

variable {ρ : Type*} {cfg : Config} {s : State ρ} {e : Event ρ} {i : ℕ} {old : Call ρ}

/-- `readOwners` counts the tasks in the queue, in a reader's hands, and owed to the queue. -/
structure Owned (cfg : Config) (s : State ρ) : Prop where
  owners : s.readOwners = s.taskQueue + (s.calls.map Call.tokens).sum
  bound : s.readOwners ≤ cfg.gMaxReadOwners
  fits : ∀ call ∈ s.calls, call.Fits cfg

theorem Owned.initial : (initial : State ρ).Owned cfg := ⟨rfl, Nat.zero_le _, by rintro _ ⟨⟩⟩

theorem Owned.owners_pos (owned : s.Owned cfg) (here : s.At i old) (token : old.tokens = 1) : 0 < s.readOwners := by
  have inside := weight_le_sum Call.tokens here
  have owners := owned.owners
  omega

/-- A call that keeps its token, or has none before and after, moves on. -/
private theorem Owned.moves (owned : s.Owned cfg) (here : s.At i old) {new : Call ρ} {t : State ρ}
    (calls : t.calls = s.calls.set i new) (same : new.tokens = old.tokens) (fits : new.Fits cfg)
    (owners : t.readOwners = s.readOwners) (queue : t.taskQueue = s.taskQueue) : t.Owned cfg := by
  have moved := sum_map_set Call.tokens here new
  refine ⟨?_, owners ▸ owned.bound, calls ▸ forall_mem_set fits owned.fits⟩
  rw [owners, queue, calls, owned.owners]
  omega

/-- A call that finds the owners it expects adds one and owes a task. -/
private theorem Owned.arms (owned : s.Owned cfg) (here : s.At i old) {new : Call ρ} {t : State ρ}
    (calls : t.calls = s.calls.set i new) (free : old.tokens = 0) (owes : new.tokens = 1) (fits : new.Fits cfg)
    (room : s.readOwners < cfg.gMaxReadOwners) (owners : t.readOwners = s.readOwners + 1)
    (queue : t.taskQueue = s.taskQueue) : t.Owned cfg := by
  have moved := sum_map_set Call.tokens here new
  refine ⟨?_, by omega, calls ▸ forall_mem_set fits owned.fits⟩
  rw [owners, queue, calls, owned.owners]
  omega

/-- A call hands the task it owes to the queue. -/
private theorem Owned.submits (owned : s.Owned cfg) (here : s.At i old) {t : State ρ} (owes : old.tokens = 1)
    (owners : t.readOwners = s.readOwners) (queue : t.taskQueue = s.taskQueue + 1)
    (calls : t.calls = s.calls.set i .done) : t.Owned cfg := by
  have moved := sum_map_set Call.tokens here .done
  have none : (Call.done : Call ρ).tokens = 0 := rfl
  refine ⟨?_, owners ▸ owned.bound, calls ▸ forall_mem_set trivial owned.fits⟩
  rw [owners, queue, calls, owned.owners]
  omega

private theorem Owned.stepDown (owned : s.Owned cfg) (here : s.At i .releasing) :
    (s.next cfg (.stepDown i)).Owned cfg := by
  have positive := owned.owners_pos here rfl
  have moved := sum_map_set Call.tokens here .stepped
  have tokens : (Call.releasing : Call ρ).tokens = 1 ∧ (Call.stepped : Call ρ).tokens = 0 := ⟨rfl, rfl⟩
  have owners := owned.owners
  have fewer : fetchSub 32 s.readOwners 1 = s.readOwners - 1 := fetchSub_of_le positive
  refine ⟨?_, ?_, forall_mem_set trivial owned.fits⟩
  · simp only [State.next, fewer]
    omega
  · have bound := owned.bound
    simp only [State.next, fewer]
    omega

/-- A new call without a token. -/
private theorem Owned.push (owned : s.Owned cfg) (req : ρ) : (s.next cfg (.push req)).Owned cfg := by
  refine ⟨?_, owned.bound, List.forall_mem_append.mpr ⟨owned.fits, by simp [Call.Fits]⟩⟩
  simp only [State.next, List.map_append, List.sum_append, List.map_cons, List.map_nil, List.sum_singleton]
  exact owned.owners

/-- A task passes from the queue to a new call. -/
private theorem Owned.take (owned : s.Owned cfg) (queued : 0 < s.taskQueue) : (s.next cfg .take).Owned cfg := by
  have owners := owned.owners
  have token : (Call.holding : Call ρ).tokens = 1 := rfl
  refine ⟨?_, owned.bound, List.forall_mem_append.mpr ⟨owned.fits, by simp [Call.Fits]⟩⟩
  simp only [State.next, List.map_append, List.sum_append, List.map_cons, List.map_nil, List.sum_singleton, token]
  omega

theorem Owned.next [DecidableEq ρ] (owned : s.Owned cfg) (able : s.enabled e) : (s.next cfg e).Owned cfg := by
  cases e with
  | push req => exact owned.push req
  | count | serve | spill | account => exact owned.moves (of_decide_eq_true able) rfl rfl trivial rfl rfl
  | load i depth =>
    exact owned.moves (of_decide_eq_true able) rfl (Call.tokens_enqueue ..) (Call.fits_enqueue ..) rfl rfl
  | exchange i depth owners ok =>
    obtain ⟨here, expected⟩ := of_decide_eq_true able
    cases ok with
    | false => exact owned.moves here rfl (Call.tokens_enqueue ..) (Call.fits_enqueue ..) rfl rfl
    | true =>
      have room : owners < cfg.gMaxReadOwners := owned.fits _ (List.mem_of_getElem? here)
      obtain rfl := expected rfl
      exact owned.arms here rfl rfl rfl trivial room rfl rfl
  | submit | resubmit => exact owned.submits (of_decide_eq_true able) rfl rfl rfl rfl
  | take => exact owned.take (of_decide_eq_true able)
  | drain i => exact owned.moves (of_decide_eq_true able) rfl (Call.tokens_drain ..) (Call.fits_drain ..) rfl rfl
  | sweep i start batch =>
    exact owned.moves (of_decide_eq_true able) rfl (Call.tokens_collected ..) (Call.fits_collected ..) rfl rfl
  | stepDown i => exact owned.stepDown (of_decide_eq_true able)
  | lookOverflow i | lookList i | lookDepth i =>
    refine owned.moves (of_decide_eq_true able) rfl ?_ ?_ rfl rfl
    · split <;> rfl
    · split <;> trivial
  | reload i => exact owned.moves (of_decide_eq_true able) rfl (Call.tokens_release _) (Call.fits_release _) rfl rfl
  | reexchange i owners ok =>
    obtain ⟨here, expected⟩ := of_decide_eq_true able
    cases ok with
    | false => exact owned.moves here rfl (Call.tokens_release _) (Call.fits_release _) rfl rfl
    | true =>
      have room : owners < cfg.gMaxReadOwners := owned.fits _ (List.mem_of_getElem? here)
      obtain rfl := expected rfl
      exact owned.arms here rfl rfl rfl trivial room rfl rfl

end State

/-! ## No lost wakeup -/

/-- The call will still read `readOwners` or look at the overflow. -/
def Call.alert {ρ : Type*} : Call ρ → Bool
  | pushed | counted _ | arming .. | stepped | rearm | rearming _ => true
  | done | submitting | holding | drained .. | spilling .. | accounting .. | serving _ | releasing | noOverflow
  | nothing | resubmitting => false

/-- Or it will still look at the list. -/
def Call.watches {ρ : Type*} : Call ρ → Bool
  | noOverflow => true
  | call => call.alert

namespace State

variable {ρ : Type*} {cfg : Config} {s : State ρ} {e : Event ρ} {i : ℕ} {old : Call ρ}

/-- While there is no owner, what lies in the overflow or on the list is minded by a call. -/
structure Awake (s : State ρ) : Prop where
  overflow : s.readOwners = 0 → s.overflow ≠ [] → ∃ call ∈ s.calls, call.alert = true
  list : s.readOwners = 0 → s.list ≠ [] → ∃ call ∈ s.calls, call.watches = true

theorem Awake.initial : (initial : State ρ).Awake := ⟨fun _ left => absurd rfl left, fun _ left => absurd rfl left⟩

theorem Awake.of_owners {t : State ρ} (positive : 0 < t.readOwners) : t.Awake :=
  ⟨fun none => absurd none positive.ne', fun none => absurd none positive.ne'⟩

private theorem watches_of_alert {call : Call ρ} (alert : call.alert = true) : call.watches = true := by
  cases call with
  | noOverflow => rfl
  | _ => exact alert

/-- A call that is alert now minds everything. -/
theorem Awake.of_alert {t : State ρ} {call : Call ρ} (member : call ∈ t.calls) (alert : call.alert = true) : t.Awake :=
  ⟨fun _ _ => ⟨call, member, alert⟩, fun _ _ => ⟨call, member, watches_of_alert alert⟩⟩

/-- A call that was not watching moves on. -/
private theorem Awake.moves (awake : s.Awake) (here : s.At i old) (idle : old.watches = false) {new : Call ρ}
    {t : State ρ} (owners : t.readOwners = s.readOwners) (list : t.list = s.list) (overflow : t.overflow = s.overflow)
    (calls : t.calls = s.calls.set i new) : t.Awake := by
  have unalert : old.alert ≠ true := fun alert => by rw [watches_of_alert alert] at idle; cases idle
  rw [← Bool.not_eq_true] at idle
  constructor
  · rw [owners, overflow, calls]
    exact fun none left => exists_mem_set here unalert new (awake.overflow none left)
  · rw [owners, list, calls]
    exact fun none left => exists_mem_set here idle new (awake.list none left)

/-- Whoever finds no owner tries to become one. -/
private theorem alert_enqueue {owners : ℕ} (none : owners = 0) (depth : ℤ) :
    (Call.enqueue cfg depth owners : Call ρ).alert = true := by
  rw [Call.enqueue, if_neg fun both => both.1 none]
  rfl

private theorem alert_release {owners : ℕ} (none : owners = 0) : (Call.release cfg owners : Call ρ).alert = true := by
  rw [Call.release, if_pos (none ▸ cfg.owners_pos)]
  rfl

/-- A call that reads `readOwners` stays alert if there is no owner. -/
private theorem Awake.reads (here : s.At i old) {new : Call ρ} {t : State ρ} (calls : t.calls = s.calls.set i new)
    (owners : t.readOwners = s.readOwners) (alert : s.readOwners = 0 → new.alert = true) : t.Awake := by
  rcases Nat.eq_zero_or_pos s.readOwners with none | some
  · exact .of_alert (calls ▸ mem_set_self here new) (alert none)
  · exact .of_owners (owners ▸ some)

/-- A call that saw no overflow leaves the overflow to the others. -/
private theorem Awake.lookList (awake : s.Awake) (here : s.At i .noOverflow) : (s.next cfg (.lookList i)).Awake := by
  by_cases left : s.list = []
  · refine ⟨fun none spilled => ?_, fun _ listed => absurd left listed⟩
    exact exists_mem_set here Bool.false_ne_true _ (awake.overflow none spilled)
  · refine .of_alert (mem_set_self here _) ?_
    rw [if_neg left]
    rfl

private theorem Awake.lookOverflow (here : s.At i .stepped) :
    (s.next cfg (.lookOverflow i)).Awake := by
  by_cases left : s.overflow = []
  · refine ⟨fun _ spilled => absurd left spilled, fun _ _ => ⟨_, mem_set_self here _, ?_⟩⟩
    rw [if_pos left]
    rfl
  · refine .of_alert (mem_set_self here _) ?_
    rw [if_neg left]
    rfl

/-- A push is followed by a read of `readOwners`, and a step down by a look at the overflow and the list. -/
theorem Awake.next [DecidableEq ρ] (owned : s.Owned cfg) (awake : s.Awake) (able : s.enabled e) :
    (s.next cfg e).Awake := by
  cases e with
  | push req => exact .of_alert (List.mem_append_right _ (List.mem_singleton_self _)) rfl
  | count | stepDown => exact .of_alert (mem_set_self (of_decide_eq_true able) _) rfl
  | load i depth => exact .reads (of_decide_eq_true able) rfl rfl fun none => alert_enqueue none depth
  | exchange i depth owners ok =>
    obtain ⟨here, _⟩ := of_decide_eq_true able
    cases ok with
    | false => exact .reads here rfl rfl fun none => alert_enqueue none depth
    | true => exact .of_owners (Nat.succ_pos owners)
  | take =>
    have queued : 0 < s.taskQueue := of_decide_eq_true able
    have owners := owned.owners
    exact .of_owners (show 0 < s.readOwners by omega)
  | submit | drain | resubmit | serve | sweep | spill | account =>
    exact .of_owners (owned.owners_pos (of_decide_eq_true able) rfl)
  | lookOverflow i => exact .lookOverflow (of_decide_eq_true able)
  | lookList i => exact awake.lookList (of_decide_eq_true able)
  | lookDepth i => exact awake.moves (of_decide_eq_true able) rfl rfl rfl rfl rfl
  | reload i => exact .reads (of_decide_eq_true able) rfl rfl alert_release
  | reexchange i owners ok =>
    obtain ⟨here, _⟩ := of_decide_eq_true able
    cases ok with
    | false => exact .reads here rfl rfl alert_release
    | true => exact .of_owners (Nat.succ_pos owners)

/-! ## Runs -/

theorem invariants_of_reach [DecidableEq ρ] (reached : Reach (step cfg) initial s) : s.Owned cfg ∧ s.Awake := by
  refine reached.invariant (P := fun s => s.Owned cfg ∧ s.Awake) ⟨.initial, .initial⟩ ?_
  rintro s e t ⟨owned, awake⟩ taken
  obtain ⟨able, rfl⟩ := step_eq_some.mp taken
  exact ⟨owned.next able, awake.next owned able⟩

/-- Once there is no task and no call in progress, nothing is left. -/
theorem emptied (owned : s.Owned cfg) (awake : s.Awake) (queue : s.taskQueue = 0)
    (ended : ∀ call ∈ s.calls, call = .done) : s.list = [] ∧ s.overflow = [] := by
  have none : s.readOwners = 0 := by
    rw [owned.owners, queue, Nat.zero_add]
    refine List.sum_eq_zero fun n member => ?_
    obtain ⟨call, inside, rfl⟩ := List.mem_map.mp member
    rw [ended call inside]
    rfl
  constructor
  · by_contra left
    obtain ⟨call, inside, watches⟩ := awake.list none left
    rw [ended call inside] at watches
    cases watches
  · by_contra left
    obtain ⟨call, inside, alert⟩ := awake.overflow none left
    rw [ended call inside] at alert
    cases alert

/-- `readOwners` is the number of tasks in the queue, in the hands of readers and owed by threads that have won their
exchange, and never more than `gMaxReadOwners`; and once there is no task and no call in progress, nothing is left
on the list or in the overflow. -/
theorem reads_lose_no_wakeup [DecidableEq ρ] (reached : Reach (step cfg) initial s) :
    s.readOwners = s.taskQueue + (s.calls.map Call.held).sum + (s.calls.map Call.owed).sum ∧
      s.readOwners ≤ cfg.gMaxReadOwners ∧
      (s.taskQueue = 0 → (∀ call ∈ s.calls, call = .done) → s.list = [] ∧ s.overflow = []) := by
  obtain ⟨owned, awake⟩ := invariants_of_reach reached
  have split : (s.calls.map Call.tokens).sum = (s.calls.map Call.held).sum + (s.calls.map Call.owed).sum :=
    List.sum_map_add
  exact ⟨by rw [owned.owners, split, Nat.add_assoc], owned.bound, emptied owned awake⟩

end State

/-- One owner, batches of two. -/
def single : Config := ⟨1, 2, by decide, by decide⟩

/-- A GET from its push to the end of its release, alone. -/
def loneRead (req : ℕ) : List (Event ℕ) :=
  [.push req, .count 0, .load 0 1, .exchange 0 1 0 true, .submit 0, .take, .drain 1, .sweep 1 1 [], .account 1 1 [req],
    .serve 1 [req], .stepDown 1, .lookOverflow 1, .lookList 1, .lookDepth 1]

/-- After a GET alone nothing is left. -/
theorem reads_lose_no_wakeup_alone : ∃ s, Reach (State.step single) State.initial s ∧
    s.batched = [7] ∧ s.list = [] ∧ s.overflow = [] := by
  obtain ⟨s, reached, batched, queue, calls⟩ : ∃ s, Reach (State.step single) State.initial s ∧ s.batched = [7] ∧
      s.taskQueue = 0 ∧ s.calls = [.done, .done] := exists_reach (loneRead 7) (by decide +kernel)
  refine ⟨s, reached, batched, (State.reads_lose_no_wakeup reached).2.2 queue ?_⟩
  rw [calls]
  simp

/-- A thread has won its exchange and not yet submitted its task: there is an owner, and no task is in the queue or in
the hands of a reader. -/
theorem owner_without_task : ∃ s : State ℕ, Reach (State.step single) State.initial s ∧ s.readOwners = 1 ∧
    s.taskQueue = 0 ∧ (s.calls.map Call.held).sum = 0 :=
  exists_reach [.push 7, .count 0, .load 0 1, .exchange 0 1 0 true] (by decide +kernel)

end FluxKV.Engine.ReadQueue
