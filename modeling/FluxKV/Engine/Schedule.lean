import FluxKV.Engine.Request
import FluxKV.Machine.Run
import FluxKV.Machine.Token

/-! # The scheduling of a vbucket's writer

Pushers insert a chain and then set `scheduled`; whoever finds it clear submits a task, to the task queue or,
if the last write was recent and little is pending, to the defer queue. A worker that has taken a task sweeps
the list, writes the batch, clears `scheduled`, looks at the list again and, if something has come in,
sets `scheduled` like a pusher. Each access to a shared variable or queue is one event.
-/

namespace FluxKV.Engine.Schedule

open Machine

/-- The two knobs of write coalescing. -/
structure Config where
  gMinWriteBatch : ℕ
  gWriteCoalesceNs : UInt64

/-- Where `SubmitOrDefer` stands: it reads the clock, loads `pending` and `lastWriteNs` to decide, loads
`lastWriteNs` again for a deferred task, and writes to one of the queues. -/
inductive Submit where
  | clock
  | pending (now : UInt64)
  | last (now : UInt64)
  | notBefore
  | defer (notBeforeNs : UInt64)
  | task
deriving DecidableEq, Repr

/-- Where an IO thread stands in `FlushStaged`, for this vbucket. -/
inductive Pusher where
  | idle
  | pushed (count : ℕ)
  | counted
  | submitting (sub : Submit)
deriving DecidableEq, Repr

/-- The three ways a worker comes to release the vbucket. -/
inductive Release where
  | empty
  | written
  | asyncDurable
deriving DecidableEq, Repr

/-- The task a release submits goes through `SubmitOrDefer` after a write, and straight to the task queue after
an empty sweep. -/
def Release.submit : Release → Submit
  | .empty => .task
  | .written | .asyncDurable => .clock

/-- Where a worker stands, for this vbucket. -/
inductive Worker where
  | idle
  | holding
  | swept (batch : List Request)
  | writing (batch : List Request)
  | stamping (path : Release)
  | releasing (path : Release)
  | released (path : Release)
  | rechecked (path : Release)
  | resubmitting (sub : Submit)
deriving DecidableEq, Repr

/-- The `VBQueue`, this vbucket's tasks in the pool's queues, the defer thread's task, and the threads. -/
structure State where
  list : List Request
  scheduled : Bool
  pending : UInt32
  lastWriteNs : UInt64
  taskQueue : ℕ
  deferQueue : List UInt64
  deferThread : Option UInt64
  pusher : ℕ → Pusher
  worker : ℕ → Worker

def State.initial : State := ⟨[], false, 0, 0, 0, [], none, fun _ => .idle, fun _ => .idle⟩

/-- One access of one thread. -/
inductive Event where
  /-- `insertChain`. -/
  | push (t : ℕ) (chain : List Request)
  /-- `pending.fetch_add`. -/
  | count (t n : ℕ)
  /-- `scheduled.exchange(true)` in `FlushStaged`. -/
  | exchange (t : ℕ)
  /-- The next access of the pusher's `SubmitOrDefer`, and the clock. -/
  | submit (t : ℕ) (sub : Submit) (now : UInt64)
  /-- A worker reads the task. -/
  | take (i : ℕ)
  /-- `sweepOnce`. -/
  | sweep (i : ℕ)
  /-- `pending.fetch_sub`. -/
  | uncount (i : ℕ) (batch : List Request)
  /-- `WriteDocs` returns, and how its batch is completed. -/
  | writeDocs (i : ℕ) (batch : List Request) (async : Bool)
  /-- `lastWriteNs.store`. -/
  | stamp (i : ℕ) (path : Release) (now : UInt64)
  /-- `scheduled.store(false)`. -/
  | clear (i : ℕ) (path : Release)
  /-- `list.empty()`. -/
  | recheck (i : ℕ) (path : Release)
  /-- `scheduled.exchange(true)` in the release. -/
  | rearm (i : ℕ) (path : Release)
  /-- The next access of the worker's submission. -/
  | resubmit (i : ℕ) (sub : Submit) (now : UInt64)
  /-- The defer thread reads a task. -/
  | deferTake (notBeforeNs : UInt64)
  /-- It passes the task on. -/
  | deferGive (notBeforeNs : UInt64)
deriving DecidableEq, Repr

namespace State

/-- What an access of `SubmitOrDefer` leads to: the next one, or the end. -/
def advance (cfg : Config) (s : State) (now : UInt64) : Submit → Option Submit
  | .clock => some (.pending now)
  | .pending now =>
    some (if cfg.gWriteCoalesceNs = 0 ∨ cfg.gMinWriteBatch ≤ s.pending.toNat then .task else .last now)
  | .last now => some (if now - s.lastWriteNs < cfg.gWriteCoalesceNs then .notBefore else .task)
  | .notBefore => some (.defer (s.lastWriteNs + cfg.gWriteCoalesceNs))
  | .defer _ | .task => none

/-- Whether an event can happen now. -/
def enabled (s : State) : Event → Bool
  | .push t chain => decide (s.pusher t = .idle ∧ chain ≠ [])
  | .count t n => decide (s.pusher t = .pushed n)
  | .exchange t => decide (s.pusher t = .counted)
  | .submit t sub _ => decide (s.pusher t = .submitting sub)
  | .take i => decide (s.worker i = .idle ∧ 0 < s.taskQueue)
  | .sweep i => decide (s.worker i = .holding)
  | .uncount i batch => decide (s.worker i = .swept batch)
  | .writeDocs i batch _ => decide (s.worker i = .writing batch)
  | .stamp i path _ => decide (s.worker i = .stamping path)
  | .clear i path => decide (s.worker i = .releasing path)
  | .recheck i path => decide (s.worker i = .released path)
  | .rearm i path => decide (s.worker i = .rechecked path)
  | .resubmit i sub _ => decide (s.worker i = .resubmitting sub)
  | .deferTake notBeforeNs => decide (s.deferThread = none ∧ s.deferQueue.head? = some notBeforeNs)
  | .deferGive notBeforeNs => decide (s.deferThread = some notBeforeNs)

/-- The queue write at the end of a submission. -/
def enqueue (s : State) : Submit → State
  | .defer notBeforeNs => { s with deferQueue := s.deferQueue ++ [notBeforeNs] }
  | .task => { s with taskQueue := s.taskQueue + 1 }
  | .clock | .pending _ | .last _ | .notBefore => s

def next (cfg : Config) (s : State) : Event → State
  | .push t chain =>
    { s with
      list := chain ++ s.list
      pusher := Function.update s.pusher t (.pushed chain.length) }
  | .count t n =>
    { s with
      pending := s.pending + n.toUInt32
      pusher := Function.update s.pusher t .counted }
  | .exchange t =>
    { s with
      scheduled := true
      pusher := Function.update s.pusher t (if s.scheduled then .idle else .submitting .clock) }
  | .submit t sub now =>
    { s.enqueue sub with
      pusher := Function.update s.pusher t (((s.advance cfg now sub).map Pusher.submitting).getD .idle) }
  | .take i =>
    { s with
      taskQueue := s.taskQueue - 1
      worker := Function.update s.worker i .holding }
  | .sweep i =>
    { s with
      list := []
      worker := Function.update s.worker i (.swept s.list.reverse) }
  | .uncount i batch =>
    { s with
      pending := s.pending - batch.length.toUInt32
      worker := Function.update s.worker i (if batch = [] then .releasing .empty else .writing batch) }
  | .writeDocs i _ async =>
    { s with worker := Function.update s.worker i (.stamping (if async then .asyncDurable else .written)) }
  | .stamp i path now =>
    { s with
      lastWriteNs := now
      worker := Function.update s.worker i (.releasing path) }
  | .clear i path =>
    { s with
      scheduled := false
      worker := Function.update s.worker i (.released path) }
  | .recheck i path =>
    { s with worker := Function.update s.worker i (if s.list = [] then .idle else .rechecked path) }
  | .rearm i path =>
    { s with
      scheduled := true
      worker := Function.update s.worker i (if s.scheduled then .idle else .resubmitting path.submit) }
  | .resubmit i sub now =>
    { s.enqueue sub with
      worker := Function.update s.worker i (((s.advance cfg now sub).map Worker.resubmitting).getD .idle) }
  | .deferTake notBeforeNs =>
    { s with
      deferQueue := s.deferQueue.tail
      deferThread := some notBeforeNs }
  | .deferGive _ =>
    { s with
      taskQueue := s.taskQueue + 1
      deferThread := none }

def step (cfg : Config) (s : State) (e : Event) : Option State := if s.enabled e then some (s.next cfg e) else none

theorem step_eq_some {cfg : Config} {s t : State} {e : Event} :
    s.step cfg e = some t ↔ s.enabled e ∧ t = s.next cfg e :=
  ite_some_eq_some.trans (and_congr_right fun _ => eq_comm)

end State

/-! ## The task of the vbucket -/

/-- Where a task can be. -/
inductive Holder where
  | taskQueue
  | deferQueue
  | deferThread
  | pusher (t : ℕ)
  | worker (i : ℕ)
deriving DecidableEq, Repr

/-- The queue a submission ends in. -/
def Submit.queue : Submit → Option Holder
  | .task => some .taskQueue
  | .defer _ => some .deferQueue
  | .clock | .pending _ | .last _ | .notBefore => none

/-- A pusher that has won its exchange owes the queues a task. -/
def Pusher.tokens : Pusher → ℕ
  | .submitting _ => 1
  | .idle | .pushed _ | .counted => 0

/-- A worker has the task from the queue until it clears `scheduled`, and owes one once it has won the exchange. -/
def Worker.tokens : Worker → ℕ
  | .holding | .swept _ | .writing _ | .stamping _ | .releasing _ | .resubmitting _ => 1
  | .idle | .released _ | .rechecked _ => 0

/-- The pusher is between its push and its exchange. -/
def Pusher.undecided : Pusher → Bool
  | .pushed _ | .counted => true
  | .idle | .submitting _ => false

/-- The worker is between its release and its exchange. -/
def Worker.undecided : Worker → Bool
  | .released _ | .rechecked _ => true
  | .idle | .holding | .swept _ | .writing _ | .stamping _ | .releasing _ | .resubmitting _ => false

namespace State

variable {cfg : Config} {s : State} {e : Event}

/-- How many tasks of the vbucket are where. -/
def tokens (s : State) : Holder → ℕ
  | .taskQueue => s.taskQueue
  | .deferQueue => s.deferQueue.length
  | .deferThread => s.deferThread.toList.length
  | .pusher t => (s.pusher t).tokens
  | .worker i => (s.worker i).tokens

private theorem pusher_tokens_update (f : ℕ → Pusher) (t t' : ℕ) (pc : Pusher) :
    (Function.update f t pc t').tokens = if t' = t then pc.tokens else (f t').tokens := by
  rw [Function.update_apply, apply_ite Pusher.tokens]

private theorem worker_tokens_update (f : ℕ → Worker) (i i' : ℕ) (pc : Worker) :
    (Function.update f i pc i').tokens = if i' = i then pc.tokens else (f i').tokens := by
  rw [Function.update_apply, apply_ite Worker.tokens]

/-- A pusher that moves on without a queue changes at most its own tokens. -/
private theorem tokens_pusher {s : State} (list scheduled pending lastWriteNs) (t : ℕ) (pc : Pusher) (h : Holder) :
    tokens { s with
      list := list, scheduled := scheduled, pending := pending, lastWriteNs := lastWriteNs
      pusher := Function.update s.pusher t pc } h = if h = .pusher t then pc.tokens else s.tokens h := by
  cases h with
  | pusher t' => simp only [tokens, pusher_tokens_update, Holder.pusher.injEq]
  | _ => rfl

private theorem tokens_worker {s : State} (list scheduled pending lastWriteNs) (i : ℕ) (pc : Worker) (h : Holder) :
    tokens { s with
      list := list, scheduled := scheduled, pending := pending, lastWriteNs := lastWriteNs
      worker := Function.update s.worker i pc } h = if h = .worker i then pc.tokens else s.tokens h := by
  cases h with
  | worker i' => simp only [tokens, worker_tokens_update, Holder.worker.injEq]
  | _ => rfl

/-- The task exists while `scheduled` is set, in one place. -/
def Scheduled (s : State) : Prop := OneToken s.scheduled s.tokens

private theorem Scheduled.pusher_moves (before : s.Scheduled) (list pending lastWriteNs) (t : ℕ) (pc : Pusher)
    (same : pc.tokens = (s.pusher t).tokens) :
    Scheduled { s with
      list := list, pending := pending, lastWriteNs := lastWriteNs
      pusher := Function.update s.pusher t pc } := by
  refine (congrArg (OneToken s.scheduled) (funext fun h => ?_)).mpr before
  rw [tokens_pusher]
  split
  · next is => rw [is, same]; rfl
  · rfl

private theorem Scheduled.worker_moves (before : s.Scheduled) (list pending lastWriteNs) (i : ℕ) (pc : Worker)
    (same : pc.tokens = (s.worker i).tokens) :
    Scheduled { s with
      list := list, pending := pending, lastWriteNs := lastWriteNs
      worker := Function.update s.worker i pc } := by
  refine (congrArg (OneToken s.scheduled) (funext fun h => ?_)).mpr before
  rw [tokens_worker]
  split
  · next is => rw [is, same]; rfl
  · rfl

/-- Whoever clears `scheduled` had the task and gives it up. -/
private theorem Scheduled.clear (before : s.Scheduled) {i : ℕ} {path : Release}
    (stands : s.worker i = .releasing path) : (s.next cfg (.clear i path)).Scheduled := by
  have holds : 0 < s.tokens (.worker i) := by simp only [tokens, stands, Worker.tokens, Nat.zero_lt_one]
  refine before.drop holds ?_ fun h differ => ?_
  · rw [next, tokens_worker, if_pos rfl]
    simp only [tokens, stands, Worker.tokens]
  · rw [next, tokens_worker, if_neg differ]

/-- A pusher's exchange sets `scheduled`; if it was clear, the pusher gets the task. -/
private theorem Scheduled.exchange (before : s.Scheduled) {t : ℕ} (stands : s.pusher t = .counted) :
    (s.next cfg (.exchange t)).Scheduled := by
  have idle : s.tokens (.pusher t) = 0 := by simp only [tokens, stands, Pusher.tokens]
  refine OneToken.exchange before idle ?_ fun h differ => ?_
  · rw [next, tokens_pusher, if_pos rfl, apply_ite Pusher.tokens]
    rfl
  · rw [next, tokens_pusher, if_neg differ]

/-- A release's exchange does the same for the worker. -/
private theorem Scheduled.rearm (before : s.Scheduled) {i : ℕ} {path : Release}
    (stands : s.worker i = .rechecked path) : (s.next cfg (.rearm i path)).Scheduled := by
  have idle : s.tokens (.worker i) = 0 := by simp only [tokens, stands, Worker.tokens]
  refine OneToken.exchange before idle ?_ fun h differ => ?_
  · rw [next, tokens_worker, if_pos rfl, apply_ite Worker.tokens]
    rfl
  · rw [next, tokens_worker, if_neg differ]

private theorem advance_of_none (cfg : Config) (s : State) (now : UInt64) {sub : Submit}
    (onward : sub.queue = none) : ∃ sub', s.advance cfg now sub = some sub' := by
  cases sub with
  | task | defer => cases onward
  | clock | pending | last | notBefore => exact ⟨_, rfl⟩

private theorem advance_of_some (cfg : Config) (s : State) (now : UInt64) {sub : Submit} {queue : Holder}
    (ends : sub.queue = some queue) : s.advance cfg now sub = none := by
  cases sub with
  | task | defer => rfl
  | clock | pending | last | notBefore => cases ends

private theorem enqueue_of_none {sub : Submit} (onward : sub.queue = none) : s.enqueue sub = s := by
  cases sub with
  | task | defer => cases onward
  | clock | pending | last | notBefore => rfl

theorem enqueue_list (s : State) (sub : Submit) : (s.enqueue sub).list = s.list := by cases sub <;> rfl

theorem enqueue_pusher (s : State) (sub : Submit) : (s.enqueue sub).pusher = s.pusher := by cases sub <;> rfl

theorem enqueue_worker (s : State) (sub : Submit) : (s.enqueue sub).worker = s.worker := by cases sub <;> rfl

theorem enqueue_scheduled (s : State) (sub : Submit) : (s.enqueue sub).scheduled = s.scheduled := by
  cases sub <;> rfl

private theorem tokens_enqueue {sub : Submit} {queue : Holder} (ends : sub.queue = some queue) (h : Holder) :
    (s.enqueue sub).tokens h = if h = queue then s.tokens h + 1 else s.tokens h := by
  cases sub with
  | task | defer =>
    cases ends
    cases h <;> simp [enqueue, tokens]
  | clock | pending | last | notBefore => cases ends

/-- A thread at the end of its submission passes the task to a queue. -/
private theorem Scheduled.hand_over (before : s.Scheduled) {sub : Submit} {h queue : Holder} {after : Holder → ℕ}
    (ends : sub.queue = some queue) (holds : s.tokens h = 1) (differ : queue ≠ h)
    (moved : ∀ x, after x = if x = h then 0 else (s.enqueue sub).tokens x) : OneToken s.scheduled after := by
  refine before.pass (g := h) (h := queue) (by omega) differ ?_ ?_ fun x giver taker => ?_
  · rw [moved, if_pos rfl, holds]
  · rw [moved, if_neg differ, tokens_enqueue ends, if_pos rfl]
  · rw [moved, if_neg giver, tokens_enqueue ends, if_neg taker]

private theorem Scheduled.submit (before : s.Scheduled) {t : ℕ} {sub : Submit} (now : UInt64)
    (stands : s.pusher t = .submitting sub) : (s.next cfg (.submit t sub now)).Scheduled := by
  cases ends : sub.queue with
  | none =>
    obtain ⟨sub', onward⟩ := advance_of_none cfg s now ends
    simp only [next, onward, enqueue_of_none ends, Option.map_some, Option.getD_some]
    exact before.pusher_moves _ _ _ t _ (by rw [stands]; rfl)
  | some queue =>
    have holds : s.tokens (.pusher t) = 1 := by simp only [tokens, stands, Pusher.tokens]
    have differ : queue ≠ .pusher t := by
      rintro rfl
      cases sub <;> cases ends
    have moved := tokens_pusher (s := s.enqueue sub) (s.enqueue sub).list s.scheduled (s.enqueue sub).pending
      (s.enqueue sub).lastWriteNs t .idle
    rw [enqueue_pusher] at moved
    simp only [next, Scheduled, advance_of_some cfg s now ends, Option.map_none, Option.getD_none, enqueue_scheduled]
    exact before.hand_over ends holds differ moved

private theorem Scheduled.resubmit (before : s.Scheduled) {i : ℕ} {sub : Submit} (now : UInt64)
    (stands : s.worker i = .resubmitting sub) : (s.next cfg (.resubmit i sub now)).Scheduled := by
  cases ends : sub.queue with
  | none =>
    obtain ⟨sub', onward⟩ := advance_of_none cfg s now ends
    simp only [next, onward, enqueue_of_none ends, Option.map_some, Option.getD_some]
    exact before.worker_moves _ _ _ i _ (by rw [stands]; rfl)
  | some queue =>
    have holds : s.tokens (.worker i) = 1 := by simp only [tokens, stands, Worker.tokens]
    have differ : queue ≠ .worker i := by
      rintro rfl
      cases sub <;> cases ends
    have moved := tokens_worker (s := s.enqueue sub) (s.enqueue sub).list s.scheduled (s.enqueue sub).pending
      (s.enqueue sub).lastWriteNs i .idle
    rw [enqueue_worker] at moved
    simp only [next, Scheduled, advance_of_some cfg s now ends, Option.map_none, Option.getD_none, enqueue_scheduled]
    exact before.hand_over ends holds differ moved

private theorem Scheduled.take (before : s.Scheduled) {i : ℕ} (stands : s.worker i = .idle) (queued : 0 < s.taskQueue) :
    (s.next cfg (.take i)).Scheduled := by
  refine before.pass (g := .taskQueue) (h := .worker i) queued (by simp) rfl ?_ fun x giver taker => ?_
  · simp only [next, tokens, Function.update_self, stands, Worker.tokens, zero_add]
  · cases x with
    | worker i' =>
      have other : i' ≠ i := fun same => taker (same ▸ rfl)
      simp only [next, tokens, worker_tokens_update, if_neg other]
    | taskQueue => exact absurd rfl giver
    | _ => rfl

private theorem Scheduled.deferTake (before : s.Scheduled) {notBeforeNs : UInt64} (stands : s.deferThread = none)
    (queued : s.deferQueue.head? = some notBeforeNs) : (s.next cfg (.deferTake notBeforeNs)).Scheduled := by
  have some_queued : 0 < s.tokens .deferQueue := by
    cases list : s.deferQueue with
    | nil => rw [list] at queued; cases queued
    | cons head tail => simp only [tokens, list, List.length_cons, Nat.zero_lt_succ]
  refine before.pass (g := .deferQueue) (h := .deferThread) some_queued (by simp) ?_ ?_ fun x giver taker => ?_
  · simp only [next, tokens, List.length_tail]
  · simp only [next, tokens, stands, Option.toList_none, Option.toList_some, List.length_nil, List.length_singleton]
  · cases x with
    | deferQueue => exact absurd rfl giver
    | deferThread => exact absurd rfl taker
    | _ => rfl

private theorem Scheduled.deferGive (before : s.Scheduled) {notBeforeNs : UInt64}
    (stands : s.deferThread = some notBeforeNs) : (s.next cfg (.deferGive notBeforeNs)).Scheduled := by
  have holds : s.tokens .deferThread = 1 := by
    simp only [tokens, stands, Option.toList_some, List.length_singleton]
  refine before.pass (g := .deferThread) (h := .taskQueue) (by omega) (by simp) ?_ rfl fun x giver taker => ?_
  · rw [holds]; rfl
  · cases x with
    | deferThread => exact absurd rfl giver
    | taskQueue => exact absurd rfl taker
    | _ => rfl

/-- One access of one thread leaves at most one task, and one exactly if `scheduled` is set. -/
theorem Scheduled.next (before : s.Scheduled) (able : s.enabled e) : (s.next cfg e).Scheduled := by
  cases e with
  | push t chain =>
    exact before.pusher_moves _ _ _ t _ (by rw [(of_decide_eq_true able).1]; rfl)
  | count t n => exact before.pusher_moves _ _ _ t _ (by rw [of_decide_eq_true able]; rfl)
  | exchange t => exact before.exchange (of_decide_eq_true able)
  | submit t sub now => exact before.submit now (of_decide_eq_true able)
  | take i => exact before.take (of_decide_eq_true able).1 (of_decide_eq_true able).2
  | sweep i | writeDocs i | stamp i => exact before.worker_moves _ _ _ i _ (by rw [of_decide_eq_true able]; rfl)
  | uncount i | recheck i =>
    refine before.worker_moves _ _ _ i _ ?_
    rw [of_decide_eq_true able, apply_ite Worker.tokens]
    exact ite_self _
  | clear i path => exact before.clear (of_decide_eq_true able)
  | rearm i path => exact before.rearm (of_decide_eq_true able)
  | resubmit i sub now => exact before.resubmit now (of_decide_eq_true able)
  | deferTake notBeforeNs => exact before.deferTake (of_decide_eq_true able).1 (of_decide_eq_true able).2
  | deferGive notBeforeNs => exact before.deferGive (of_decide_eq_true able)

/-! ## No lost wakeup -/

/-- If something is on the list, then `scheduled` is set or a thread is about to set it. -/
def Awake (s : State) : Prop :=
  s.list ≠ [] →
    s.scheduled = true ∨ (∃ t, (s.pusher t).undecided = true) ∨ ∃ i, (s.worker i).undecided = true

private theorem exists_update {α : Type*} {P : α → Bool} {f : ℕ → α} {t : ℕ} (not_here : P (f t) = false) (a : α)
    (some_one : ∃ x, P (f x) = true) : ∃ x, P (Function.update f t a x) = true := by
  obtain ⟨x, holds⟩ := some_one
  have elsewhere : x ≠ t := by
    rintro rfl
    rw [holds] at not_here
    cases not_here
  exact ⟨x, by rwa [Function.update_of_ne elsewhere]⟩

private theorem Awake.pusher_moves (before : s.Awake) {after : State} {t : ℕ} {pc : Pusher}
    (decided : (s.pusher t).undecided = false) (list : after.list = s.list) (flag : after.scheduled = s.scheduled)
    (pusher : after.pusher = Function.update s.pusher t pc) (worker : after.worker = s.worker) : after.Awake := by
  intro listed
  rw [flag, pusher, worker]
  exact (before (list ▸ listed)).imp_right (Or.imp_left (exists_update decided pc))

private theorem Awake.worker_moves (before : s.Awake) {after : State} {i : ℕ} {pc : Worker}
    (decided : (s.worker i).undecided = false) (list : after.list = s.list) (flag : after.scheduled = s.scheduled)
    (pusher : after.pusher = s.pusher) (worker : after.worker = Function.update s.worker i pc) : after.Awake := by
  intro listed
  rw [flag, pusher, worker]
  exact (before (list ▸ listed)).imp_right (Or.imp_right (exists_update decided pc))

/-- A push is followed by an exchange, and a clearing of `scheduled` by a look at the list, so nothing on the list is
forgotten. -/
theorem Awake.next (before : s.Awake) (able : s.enabled e) : (s.next cfg e).Awake := by
  cases e with
  | push t | count t =>
    exact fun _ => .inr (.inl ⟨t, by simp only [State.next, Function.update_self, Pusher.undecided]⟩)
  | exchange | rearm => exact fun _ => .inl rfl
  | submit t sub now =>
    exact before.pusher_moves (by rw [of_decide_eq_true able]; rfl) (enqueue_list s sub) (enqueue_scheduled s sub) rfl
      (enqueue_worker s sub)
  | take i => exact before.worker_moves (by rw [(of_decide_eq_true able).1]; rfl) rfl rfl rfl rfl
  | sweep i => exact fun listed => absurd rfl listed
  | uncount | writeDocs | stamp => exact before.worker_moves (by rw [of_decide_eq_true able]; rfl) rfl rfl rfl rfl
  | clear i path => exact fun _ => .inr (.inr ⟨i, by simp only [State.next, Function.update_self, Worker.undecided]⟩)
  | recheck i path =>
    intro listed
    have found : s.list ≠ [] := listed
    exact .inr (.inr ⟨i, by simp only [State.next, Function.update_self, if_neg found, Worker.undecided]⟩)
  | resubmit i sub now =>
    exact before.worker_moves (by rw [of_decide_eq_true able]; rfl) (enqueue_list s sub) (enqueue_scheduled s sub)
      (enqueue_pusher s sub) rfl
  | deferTake | deferGive => exact before

/-! ## Runs -/

theorem scheduled_of_reach (reached : Reach (step cfg) initial s) : s.Scheduled := by
  refine Reach.invariant (P := Scheduled) ?_ (fun before stepped => ?_) reached
  · exact ⟨fun _ h => by cases h <;> rfl, fun set => Bool.noConfusion set⟩
  · obtain ⟨able, rfl⟩ := step_eq_some.mp stepped
    exact before.next able

theorem awake_of_reach (reached : Reach (step cfg) initial s) : s.Awake := by
  refine Reach.invariant (P := Awake) (fun listed => absurd rfl listed) (fun before stepped => ?_) reached
  obtain ⟨able, rfl⟩ := step_eq_some.mp stepped
  exact before.next able

/-- There is at most one task of the vbucket, so no two of its `WriteDocs` overlap; and while something is on its
list there is one, or a thread is between its push or its release and its exchange. -/
theorem one_task_per_vbucket (reached : Reach (step cfg) initial s) :
    (∀ h, s.tokens h ≤ 1) ∧ (∀ h h', 0 < s.tokens h → 0 < s.tokens h' → h = h') ∧
      (∀ i j batch batch', s.worker i = .writing batch → s.worker j = .writing batch' → i = j) ∧
      (s.list ≠ [] → (∃ h, s.tokens h = 1) ∨ (∃ t, (s.pusher t).undecided = true) ∨
        ∃ i, (s.worker i).undecided = true) := by
  have one := scheduled_of_reach reached
  refine ⟨one.le_one, fun h h' => one.eq_of_pos, fun i j batch batch' first second => ?_, fun listed => ?_⟩
  · have writes : ∀ {w b}, s.worker w = .writing b → 0 < s.tokens (.worker w) := fun stands => by
      simp only [tokens, stands, Worker.tokens, Nat.zero_lt_one]
    exact Holder.worker.inj (one.eq_of_pos (writes first) (writes second))
  · apply (awake_of_reach reached listed).imp_left
    intro set
    obtain ⟨h, single, _⟩ := one.held set
    exact ⟨h, single⟩

end State

/-- A write younger than the microsecond since the last one waits, unless 64 are pending. -/
def coalescing : Config := ⟨64, 1000⟩

def firstSet : Request := ⟨0, 0, 0, [107], .set [1] 0 0 0, none⟩

def secondSet : Request := ⟨1, 1, 0, [107], .set [2] 0 0 0, none⟩

/-- A pusher has won its exchange and not yet submitted: nothing is in a queue or with a worker, nobody is about to
exchange, and the list is not empty. -/
theorem task_owed_by_pusher :
    ∃ s, Reach (State.step coalescing) State.initial s ∧ s.list ≠ [] ∧ s.taskQueue = 0 ∧ s.deferQueue = [] ∧
      (∀ i, s.worker i = .idle) ∧ ∀ t, (s.pusher t).undecided = false := by
  refine ⟨_, ⟨[.push 0 [firstSet], .count 0 1, .exchange 0], rfl⟩, List.cons_ne_nil _ _, rfl, rfl, fun _ => rfl,
    fun t => ?_⟩
  by_cases same : t = 0
  · subst same; rfl
  · simp only [State.next, Function.update_of_ne same, State.initial, Pusher.undecided]

/-- The first write goes through the defer queue; while it is being written a second one is pushed. -/
def deferredRun : List Event :=
  [.push 0 [firstSet], .count 0 1, .exchange 0, .submit 0 .clock 5, .submit 0 (.pending 5) 5, .submit 0 (.last 5) 6,
    .submit 0 .notBefore 7, .submit 0 (.defer 1000) 7, .deferTake 1000, .deferGive 1000, .take 0, .sweep 0,
    .uncount 0 [firstSet], .push 1 [secondSet], .count 1 1, .exchange 1]

theorem one_task_while_writing :
    ∃ s, Reach (State.step coalescing) State.initial s ∧ s.list = [secondSet] ∧ s.worker 0 = .writing [firstSet] ∧
      (∀ h, s.tokens h ≤ 1) ∧ (∀ h h', 0 < s.tokens h → 0 < s.tokens h' → h = h') ∧
      (∀ i j batch batch', s.worker i = .writing batch → s.worker j = .writing batch' → i = j) ∧
      (s.list ≠ [] → (∃ h, s.tokens h = 1) ∨ (∃ t, (s.pusher t).undecided = true) ∨
        ∃ i, (s.worker i).undecided = true) := by
  obtain ⟨s, reached, list, worker⟩ : ∃ s, Reach (State.step coalescing) State.initial s ∧ s.list = [secondSet] ∧
      s.worker 0 = .writing [firstSet] := exists_reach deferredRun (by decide +kernel)
  exact ⟨s, reached, list, worker, State.one_task_per_vbucket reached⟩

end FluxKV.Engine.Schedule
