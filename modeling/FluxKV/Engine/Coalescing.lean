import FluxKV.Engine.Schedule

/-! # The queue of deferred writes

A vbucket that was written less than the coalescing interval ago and has little pending is not given to a writer at
once: its task waits in `deferQueue_` until an interval after that write. One thread reads the queue, sleeps until the
entry it has read is due and passes the task on. An entry is therefore due an interval after its vbucket's last write,
and the queue is in the order of the calls: the two agree as long as vbuckets are deferred in the order in which they
were written.
-/

namespace FluxKV.Engine.Coalescing

open Machine
open Schedule (Config)

/-- What scheduling and coalescing read of a `VBQueue`. -/
structure VBQueue where
  scheduled : Bool := false
  pending : UInt32 := 0
  lastWriteNs : UInt64 := 0
deriving DecidableEq, Repr

def shouldDeferWrite (cfg : Config) (vbq : VBQueue) (now : UInt64) : Bool :=
  if cfg.gWriteCoalesceNs = 0 ∨ cfg.gMinWriteBatch ≤ vbq.pending.toNat then false
  else decide (now - vbq.lastWriteNs < cfg.gWriteCoalesceNs)

structure PersistTask where
  vbid : UInt16
  enqueuedNs : UInt64
deriving DecidableEq, Repr

/-- An entry of the queue. The sentinel of `Shutdown` has no task. -/
structure Deferred where
  notBeforeNs : UInt64
  task : Option PersistTask
deriving DecidableEq, Repr

/-- Where `deferLoop` is. -/
inductive Loop where
  | idle
  | holding (d : Deferred)
  | draining
  | stopped
deriving DecidableEq, Repr

/-- The pool's queues, the vbuckets that workers have a task of, and the clock. -/
structure State where
  clock : UInt64
  vbqs : UInt16 → VBQueue := fun _ => {}
  taskQueue : List PersistTask := []
  deferQueue : List Deferred := []
  loop : Loop := .idle
  working : List UInt16 := []

inductive Event where
  | tick (now : UInt64)
  /-- A push or a sweep changes `pending`. -/
  | count (vbid : UInt16) (pending : UInt32)
  /-- `scheduled.exchange(true)` finds it clear, and `SubmitOrDefer` follows. -/
  | submitOrDefer (vbid : UInt16) (now : UInt64)
  /-- The same with `Submit`, after an empty sweep. -/
  | submit (vbid : UInt16) (now : UInt64)
  /-- A worker reads a task. -/
  | take (task : PersistTask)
  /-- `WriteDocs` is done: `lastWriteNs.store`. -/
  | write (vbid : UInt16) (now : UInt64)
  /-- `scheduled.store(false)`. -/
  | release (vbid : UInt16)
  /-- `deferLoop` reads an entry. -/
  | deferTake (d : Deferred)
  /-- It has slept until the entry is due, and passes the task on. -/
  | deferGive (d : Deferred) (now : UInt64)
  /-- `Shutdown` writes the sentinel. -/
  | shutdown
  | readSentinel (d : Deferred)
  /-- What is left goes to the workers at once. -/
  | drain (d : Deferred)
  | stop
deriving DecidableEq, Repr

namespace State

/-- The queues are unbounded here: a thread that waits for a slot has not written yet. -/
def enabled (s : State) : Event → Bool
  | .tick now => decide (s.clock ≤ now)
  | .count .. | .shutdown => true
  | .submitOrDefer vbid now | .submit vbid now => decide (s.clock ≤ now ∧ (s.vbqs vbid).scheduled = false)
  | .take task => decide (s.taskQueue.head? = some task)
  | .write vbid now => decide (s.clock ≤ now ∧ vbid ∈ s.working)
  | .release vbid => decide (vbid ∈ s.working)
  | .deferTake d => decide (s.loop = .idle ∧ s.deferQueue.head? = some d ∧ d.task.isSome = true)
  | .deferGive d now => decide (s.clock ≤ now ∧ s.loop = .holding d ∧ d.notBeforeNs ≤ now)
  | .readSentinel d => decide (s.loop = .idle ∧ s.deferQueue.head? = some d ∧ d.task = none)
  | .drain d => decide (s.loop = .draining ∧ s.deferQueue.head? = some d)
  | .stop => decide (s.loop = .draining ∧ s.deferQueue = [])

/-- The body of `SubmitOrDefer`. -/
def enqueue (cfg : Config) (s : State) (vbid : UInt16) (now : UInt64) : State :=
  let vbq := s.vbqs vbid
  let task : PersistTask := ⟨vbid, now⟩
  if shouldDeferWrite cfg vbq now then
    { s with deferQueue := s.deferQueue ++ [⟨vbq.lastWriteNs + cfg.gWriteCoalesceNs, some task⟩] }
  else { s with taskQueue := s.taskQueue ++ [task] }

def mark (s : State) (vbid : UInt16) (scheduled : Bool) : State :=
  { s with vbqs := Function.update s.vbqs vbid { s.vbqs vbid with scheduled } }

def stamp (s : State) (vbid : UInt16) (now : UInt64) : State :=
  { s with vbqs := Function.update s.vbqs vbid { s.vbqs vbid with lastWriteNs := now } }

theorem mark_vbqs_self (s : State) (v : UInt16) (b : Bool) :
    (s.mark v b).vbqs v = { s.vbqs v with scheduled := b } := Function.update_self ..

theorem mark_vbqs_of_ne (s : State) {u v : UInt16} (other : u ≠ v) (b : Bool) : (s.mark v b).vbqs u = s.vbqs u :=
  Function.update_of_ne other ..

theorem mark_lastWriteNs (s : State) (u v : UInt16) (b : Bool) :
    ((s.mark v b).vbqs u).lastWriteNs = (s.vbqs u).lastWriteNs := by
  rcases eq_or_ne u v with rfl | other
  · rw [mark_vbqs_self]
  · rw [mark_vbqs_of_ne s other]

theorem stamp_vbqs_self (s : State) (v : UInt16) (now : UInt64) :
    (s.stamp v now).vbqs v = { s.vbqs v with lastWriteNs := now } := Function.update_self ..

theorem stamp_vbqs_of_ne (s : State) {u v : UInt16} (other : u ≠ v) (now : UInt64) :
    (s.stamp v now).vbqs u = s.vbqs u := Function.update_of_ne other ..

def next (cfg : Config) (s : State) : Event → State
  | .tick now => { s with clock := now }
  | .count vbid pending => { s with vbqs := Function.update s.vbqs vbid { s.vbqs vbid with pending } }
  | .submitOrDefer vbid now => { (s.mark vbid true).enqueue cfg vbid now with clock := now }
  | .submit vbid now =>
    { s.mark vbid true with
      taskQueue := s.taskQueue ++ [⟨vbid, now⟩]
      clock := now }
  | .take task => { s with taskQueue := s.taskQueue.tail, working := task.vbid :: s.working }
  | .write vbid now => { s.stamp vbid now with clock := now }
  | .release vbid => { s.mark vbid false with working := s.working.erase vbid }
  | .deferTake d => { s with deferQueue := s.deferQueue.tail, loop := .holding d }
  | .deferGive d now => { s with taskQueue := s.taskQueue ++ d.task.toList, loop := .idle, clock := now }
  | .shutdown => { s with deferQueue := s.deferQueue ++ [⟨0, none⟩] }
  | .readSentinel _ => { s with deferQueue := s.deferQueue.tail, loop := .draining }
  | .drain d => { s with deferQueue := s.deferQueue.tail, taskQueue := s.taskQueue ++ d.task.toList }
  | .stop => { s with loop := .stopped }

def step (cfg : Config) (s : State) (e : Event) : Option State := if s.enabled e then some (s.next cfg e) else none

theorem step_eq_some {cfg : Config} {s t : State} {e : Event} :
    s.step cfg e = some t ↔ s.enabled e ∧ s.next cfg e = t :=
  ite_some_eq_some

end State

/-- Alone on its vbucket, the decision is the one the vbucket's own machine takes in two loads. -/
theorem advance_eq_shouldDeferWrite (cfg : Config) (s : Schedule.State) (now later : UInt64) :
    ((s.advance cfg later (.pending now)).bind fun sub =>
      if sub = .last now then s.advance cfg later sub else some sub) =
      some (if shouldDeferWrite cfg ⟨s.scheduled, s.pending, s.lastWriteNs⟩ now then .notBefore else .task) := by
  unfold shouldDeferWrite
  simp only [Schedule.State.advance, Option.bind_some]
  split
  · simp
  · simp

/-! ## Who has a vbucket's task -/

/-- The due time and the vbucket of each entry. -/
def entries (queue : List Deferred) : List (UInt64 × UInt16) :=
  queue.filterMap fun d => d.task.map fun task => (d.notBeforeNs, task.vbid)

theorem entries_append (first second : List Deferred) : entries (first ++ second) = entries first ++ entries second :=
  List.filterMap_append

theorem entries_cons (d : Deferred) (queue : List Deferred) : entries (d :: queue) = entries [d] ++ entries queue :=
  entries_append [d] queue

theorem map_snd_entries_singleton (d : Deferred) :
    (entries [d]).map Prod.snd = d.task.toList.map PersistTask.vbid := by
  obtain ⟨due, task⟩ := d
  cases task with
  | none | some => rfl

def Loop.held : Loop → List Deferred
  | holding d => [d]
  | idle | draining | stopped => []

namespace State

variable {cfg : Config} {s t : State} {e : Event}

/-- What `deferLoop` holds and what is still in the queue. -/
def waiting (s : State) : List (UInt64 × UInt16) := entries (s.loop.held ++ s.deferQueue)

/-- The vbuckets that have a task, wherever it is. -/
def tokens (s : State) : List UInt16 :=
  s.taskQueue.map PersistTask.vbid ++ s.waiting.map Prod.snd ++ s.working

/-- A vbucket has one task at most, and only while it is scheduled, so it is not written while it waits: its entry is
due an interval after its last write. -/
structure Waits (cfg : Config) (s : State) : Prop where
  nodup : s.tokens.Nodup
  scheduled : ∀ v ∈ s.tokens, (s.vbqs v).scheduled = true
  due : ∀ entry ∈ s.waiting, entry.1 = (s.vbqs entry.2).lastWriteNs + cfg.gWriteCoalesceNs
  past : ∀ v, (s.vbqs v).lastWriteNs ≤ s.clock

theorem Waits.initial (start : UInt64) : Waits cfg { clock := start } where
  nodup := List.nodup_nil
  scheduled _ member := absurd member List.not_mem_nil
  due _ member := absurd member List.not_mem_nil
  past _ := UInt64.zero_le

/-- A step that only moves tasks about. -/
private theorem Waits.move (waits : s.Waits cfg) (tokens : s.tokens.Perm t.tokens)
    (less : t.waiting ⊆ s.waiting) (scheduled : ∀ v, (t.vbqs v).scheduled = (s.vbqs v).scheduled)
    (written : ∀ v, (t.vbqs v).lastWriteNs = (s.vbqs v).lastWriteNs) (clock : s.clock ≤ t.clock) : t.Waits cfg where
  nodup := tokens.nodup_iff.mp waits.nodup
  scheduled v member := by
    rw [scheduled]
    exact waits.scheduled v (tokens.mem_iff.mpr member)
  due entry member := by
    rw [written]
    exact waits.due entry (less member)
  past v := by
    rw [written]
    exact UInt64.le_trans (waits.past v) clock

/-- A step that leaves every task where it was. -/
private theorem Waits.congr (waits : s.Waits cfg) (same : t.waiting = s.waiting) (tasks : t.taskQueue = s.taskQueue)
    (working : t.working = s.working) (vbqs : t.vbqs = s.vbqs) (clock : s.clock ≤ t.clock) : t.Waits cfg := by
  have tokens : s.tokens = t.tokens := by rw [tokens, tokens, same, tasks, working]
  refine waits.move (.of_eq tokens) ?_ (fun _ => by rw [vbqs]) (fun _ => by rw [vbqs]) clock
  rw [same]
  exact List.Subset.refl _

/-- A vbucket is scheduled, and its task put into one of the queues. -/
private theorem Waits.add (waits : s.Waits cfg) {v : UInt16} (clear : (s.vbqs v).scheduled = false)
    (tokens : (v :: s.tokens).Perm t.tokens)
    (entered : t.waiting ⊆ ((s.vbqs v).lastWriteNs + cfg.gWriteCoalesceNs, v) :: s.waiting)
    (vbqs : t.vbqs = (s.mark v true).vbqs) (clock : s.clock ≤ t.clock) : t.Waits cfg := by
  have fresh : v ∉ s.tokens := fun member => by
    rw [waits.scheduled v member] at clear
    cases clear
  have written : ∀ u, (t.vbqs u).lastWriteNs = (s.vbqs u).lastWriteNs := fun u => by rw [vbqs, mark_lastWriteNs]
  refine ⟨tokens.nodup_iff.mp (List.nodup_cons.mpr ⟨fresh, waits.nodup⟩), fun u member => ?_, fun entry member => ?_,
    fun u => ?_⟩
  · rw [vbqs]
    rcases List.mem_cons.mp (tokens.mem_iff.mpr member) with rfl | before
    · rw [mark_vbqs_self]
    · rw [mark_vbqs_of_ne s (ne_of_mem_of_not_mem before fresh)]
      exact waits.scheduled u before
  · rw [written]
    rcases List.mem_cons.mp (entered member) with rfl | before
    · rfl
    · exact waits.due entry before
  · rw [written]
    exact UInt64.le_trans (waits.past u) clock

private theorem Waits.write (waits : s.Waits cfg) {v : UInt16} {now : UInt64} (later : s.clock ≤ now)
    (worked : v ∈ s.working) : (s.next cfg (.write v now)).Waits cfg := by
  have apart : ∀ entry ∈ s.waiting, entry.2 ≠ v := by
    rintro entry member rfl
    have split := List.nodup_append.mp waits.nodup
    exact split.2.2 entry.2 (List.mem_append_right _ (List.mem_map_of_mem member)) entry.2 worked rfl
  refine ⟨waits.nodup, fun u member => ?_, fun entry member => ?_, fun u => ?_⟩
  · show ((s.stamp v now).vbqs u).scheduled = true
    rcases eq_or_ne u v with rfl | other
    · rw [stamp_vbqs_self]
      exact waits.scheduled u member
    · rw [stamp_vbqs_of_ne s other]
      exact waits.scheduled u member
  · show entry.1 = ((s.stamp v now).vbqs entry.2).lastWriteNs + _
    rw [stamp_vbqs_of_ne s (apart entry member)]
    exact waits.due entry member
  · show ((s.stamp v now).vbqs u).lastWriteNs ≤ now
    rcases eq_or_ne u v with rfl | other
    · rw [stamp_vbqs_self]
      exact UInt64.le_refl now
    · rw [stamp_vbqs_of_ne s other]
      exact UInt64.le_trans (waits.past u) later

private theorem Waits.release (waits : s.Waits cfg) {v : UInt16} (worked : v ∈ s.working) :
    (s.next cfg (.release v)).Waits cfg := by
  have tokens : s.tokens.Perm (v :: (s.next cfg (.release v)).tokens) :=
    ((List.perm_cons_erase worked).append_left _).trans List.perm_middle
  obtain ⟨gone, nodup⟩ := List.nodup_cons.mp (tokens.nodup_iff.mp waits.nodup)
  refine ⟨nodup, fun u member => ?_, fun entry member => ?_, fun u => ?_⟩
  · show ((s.mark v false).vbqs u).scheduled = true
    rw [mark_vbqs_of_ne s (ne_of_mem_of_not_mem member gone)]
    exact waits.scheduled u (tokens.mem_iff.mpr (List.mem_cons_of_mem v member))
  · show entry.1 = ((s.mark v false).vbqs entry.2).lastWriteNs + _
    rw [mark_lastWriteNs]
    exact waits.due entry member
  · show ((s.mark v false).vbqs u).lastWriteNs ≤ s.clock
    rw [mark_lastWriteNs]
    exact waits.past u

theorem enqueue_eq (s : State) (v : UInt16) (now : UInt64) : s.enqueue cfg v now =
    if shouldDeferWrite cfg (s.vbqs v) now then
      { s with deferQueue := s.deferQueue ++ [⟨(s.vbqs v).lastWriteNs + cfg.gWriteCoalesceNs, some ⟨v, now⟩⟩] }
    else { s with taskQueue := s.taskQueue ++ [⟨v, now⟩] } := rfl

/-- A task at the end of the task queue. -/
private theorem tokens_task (s : State) (task : PersistTask) :
    (task.vbid :: s.tokens).Perm ({ s with taskQueue := s.taskQueue ++ [task] } : State).tokens := by
  have last : ({ s with taskQueue := s.taskQueue ++ [task] } : State).tokens =
      s.taskQueue.map PersistTask.vbid ++ task.vbid :: (s.waiting.map Prod.snd ++ s.working) := by
    simp [tokens, waiting]
  rw [last, tokens, List.append_assoc]
  exact List.perm_middle.symm

/-- An entry at the end of the defer queue. -/
private theorem waiting_defer (s : State) (d : Deferred) :
    ({ s with deferQueue := s.deferQueue ++ [d] } : State).waiting = s.waiting ++ entries [d] := by
  simp only [waiting, ← List.append_assoc, entries_append]

private theorem tokens_defer (s : State) (due : UInt64) (task : PersistTask) :
    (task.vbid :: s.tokens).Perm ({ s with deferQueue := s.deferQueue ++ [⟨due, some task⟩] } : State).tokens := by
  have last : ({ s with deferQueue := s.deferQueue ++ [⟨due, some task⟩] } : State).tokens =
      s.taskQueue.map PersistTask.vbid ++ s.waiting.map Prod.snd ++ task.vbid :: s.working := by
    rw [tokens, waiting_defer, List.map_append, map_snd_entries_singleton]
    simp
  rw [last, tokens]
  exact List.perm_middle.symm

/-- The first of what waits goes to the task queue. -/
private theorem tokens_pass {d : Deferred} {rest : List (UInt64 × UInt16)} (front : s.waiting = entries [d] ++ rest)
    (tasks : t.taskQueue = s.taskQueue ++ d.task.toList) (left : t.waiting = rest) (working : t.working = s.working) :
    s.tokens = t.tokens := by
  rw [tokens, tokens, tasks, left, working, front, List.map_append, List.map_append, map_snd_entries_singleton]
  simp only [List.append_assoc]

private theorem Waits.submitOrDefer (waits : s.Waits cfg) {v : UInt16} {now : UInt64} (later : s.clock ≤ now)
    (clear : (s.vbqs v).scheduled = false) : (s.next cfg (.submitOrDefer v now)).Waits cfg := by
  rw [State.next, enqueue_eq, mark_lastWriteNs]
  split
  · refine waits.add clear (s.tokens_defer _ ⟨v, now⟩) ?_ rfl later
    have entered : ({ s with deferQueue := s.deferQueue ++
        [⟨(s.vbqs v).lastWriteNs + cfg.gWriteCoalesceNs, some ⟨v, now⟩⟩] } : State).waiting ⊆
        ((s.vbqs v).lastWriteNs + cfg.gWriteCoalesceNs, v) :: s.waiting := by
      rw [waiting_defer]
      exact (List.perm_append_singleton ..).subset
    exact entered
  · exact waits.add clear (s.tokens_task ⟨v, now⟩) (List.subset_cons_self ..) rfl later

theorem Waits.next (waits : s.Waits cfg) (able : s.enabled e) : (s.next cfg e).Waits cfg := by
  cases e with
  | tick now => exact waits.congr rfl rfl rfl rfl (of_decide_eq_true able)
  | count v pending =>
    have kept : ∀ u, ((s.next cfg (.count v pending)).vbqs u).scheduled = (s.vbqs u).scheduled ∧
        ((s.next cfg (.count v pending)).vbqs u).lastWriteNs = (s.vbqs u).lastWriteNs := by
      intro u
      rcases eq_or_ne u v with rfl | other
      · simp [State.next]
      · simp [State.next, other]
    exact waits.move (.refl _) (List.Subset.refl _) (fun u => (kept u).1) (fun u => (kept u).2) (UInt64.le_refl _)
  | submitOrDefer v now =>
    obtain ⟨later, clear⟩ := of_decide_eq_true able
    exact waits.submitOrDefer later clear
  | submit v now =>
    obtain ⟨later, clear⟩ := of_decide_eq_true able
    exact waits.add clear (s.tokens_task ⟨v, now⟩) (List.subset_cons_self ..) rfl later
  | take task =>
    obtain ⟨rest, queue⟩ := List.head?_eq_some_iff.mp (of_decide_eq_true able)
    refine waits.move ?_ (List.Subset.refl _) (fun _ => rfl) (fun _ => rfl) (UInt64.le_refl _)
    have moved : (s.next cfg (.take task)).tokens =
        rest.map PersistTask.vbid ++ s.waiting.map Prod.snd ++ task.vbid :: s.working := by
      simp [State.next, tokens, waiting, queue]
    rw [moved, tokens, queue]
    exact List.perm_middle.symm
  | write v now =>
    obtain ⟨later, worked⟩ := of_decide_eq_true able
    exact waits.write later worked
  | release v => exact waits.release (of_decide_eq_true able)
  | deferTake d =>
    obtain ⟨idle, front, _⟩ := of_decide_eq_true able
    obtain ⟨rest, queue⟩ := List.head?_eq_some_iff.mp front
    have same : (s.next cfg (.deferTake d)).waiting = s.waiting := by
      simp [State.next, waiting, idle, queue, Loop.held]
    exact waits.congr same rfl rfl rfl (UInt64.le_refl _)
  | deferGive d now =>
    obtain ⟨later, held, _⟩ := of_decide_eq_true able
    have front : s.waiting = entries [d] ++ entries s.deferQueue := by
      rw [waiting, held]
      exact entries_append ..
    refine waits.move (.of_eq (tokens_pass front rfl rfl rfl)) ?_ (fun _ => rfl) (fun _ => rfl) later
    rw [front]
    exact List.subset_append_right ..
  | shutdown =>
    have same : (s.next cfg .shutdown).waiting = s.waiting := (s.waiting_defer ⟨0, none⟩).trans (List.append_nil _)
    exact waits.congr same rfl rfl rfl (UInt64.le_refl _)
  | readSentinel d =>
    obtain ⟨idle, front, none⟩ := of_decide_eq_true able
    obtain ⟨rest, queue⟩ := List.head?_eq_some_iff.mp front
    have same : (s.next cfg (.readSentinel d)).waiting = s.waiting := by
      simp [State.next, waiting, idle, queue, Loop.held, entries, none]
    exact waits.congr same rfl rfl rfl (UInt64.le_refl _)
  | drain d =>
    obtain ⟨draining, first⟩ := of_decide_eq_true able
    obtain ⟨rest, queue⟩ := List.head?_eq_some_iff.mp first
    have front : s.waiting = entries [d] ++ entries rest := by
      rw [waiting, draining, queue]
      exact entries_cons ..
    have left : (s.next cfg (.drain d)).waiting = entries rest := by
      simp [State.next, waiting, draining, queue, Loop.held]
    refine waits.move (.of_eq (tokens_pass front rfl left rfl)) ?_ (fun _ => rfl) (fun _ => rfl) (UInt64.le_refl _)
    rw [front, left]
    exact List.subset_append_right ..
  | stop =>
    obtain ⟨draining, _⟩ := of_decide_eq_true able
    have same : (s.next cfg .stop).waiting = s.waiting := by rw [waiting, waiting, draining]; rfl
    exact waits.congr same rfl rfl rfl (UInt64.le_refl _)

/-! ## Due order -/

/-- `deferLoop` sleeps on its entry while another is due. -/
def HeldBack (s : State) : Prop :=
  ∃ held ∈ entries s.loop.held, s.clock < held.1 ∧ ∃ entry ∈ entries s.deferQueue, entry.1 ≤ s.clock

/-- When the vbucket of an entry was last written. -/
def lastWrite (s : State) (entry : UInt64 × UInt16) : UInt64 := (s.vbqs entry.2).lastWriteNs

theorem waits (start : UInt64) (reached : Reach (step cfg) { clock := start } s) : s.Waits cfg := by
  refine Reach.invariant (Waits.initial start) ?_ reached
  intro s e t waits taken
  obtain ⟨able, rfl⟩ := step_eq_some.mp taken
  exact waits.next able

theorem Waits.le_iff (waits : s.Waits cfg) (fits : s.clock.toNat + cfg.gWriteCoalesceNs.toNat < 2 ^ 64)
    {a b : UInt64 × UInt16} (first : a ∈ s.waiting) (second : b ∈ s.waiting) :
    a.1 ≤ b.1 ↔ s.lastWrite a ≤ s.lastWrite b := by
  have exact : ∀ v, ((s.vbqs v).lastWriteNs + cfg.gWriteCoalesceNs).toNat =
      (s.vbqs v).lastWriteNs.toNat + cfg.gWriteCoalesceNs.toNat := by
    intro v
    have past := UInt64.le_iff_toNat_le.mp (waits.past v)
    rw [UInt64.toNat_add, Nat.mod_eq_of_lt (by omega)]
  rw [waits.due a first, waits.due b second, UInt64.le_iff_toNat_le, UInt64.le_iff_toNat_le, exact, exact, lastWrite,
    lastWrite]
  omega

/-- Entries that wait are in due order exactly when their vbuckets are in the order of their last writes. -/
theorem Waits.pairwise_iff (waits : s.Waits cfg) (fits : s.clock.toNat + cfg.gWriteCoalesceNs.toNat < 2 ^ 64)
    {some : List (UInt64 × UInt16)} (part : some ⊆ s.waiting) :
    (some.map Prod.fst).Pairwise (· ≤ ·) ↔ (some.map s.lastWrite).Pairwise (· ≤ ·) := by
  rw [List.pairwise_map, List.pairwise_map]
  exact List.Pairwise.iff_of_mem fun first second => waits.le_iff fits (part first) (part second)

/-- The entry `deferLoop` sleeps on comes to hold another back exactly when its vbucket was written later. -/
theorem Waits.heldBack_iff (waits : s.Waits cfg) (fits : s.clock.toNat + cfg.gWriteCoalesceNs.toNat < 2 ^ 64) :
    (∃ now, s.clock ≤ now ∧ (s.next cfg (.tick now)).HeldBack) ↔
      ∃ held ∈ entries s.loop.held, s.clock < held.1 ∧
        ∃ entry ∈ entries s.deferQueue, s.lastWrite entry < s.lastWrite held := by
  have inside : ∀ {held}, held ∈ entries s.loop.held → held ∈ s.waiting := fun member => by
    rw [waiting, entries_append]
    exact List.mem_append_left _ member
  have inside' : ∀ {entry}, entry ∈ entries s.deferQueue → entry ∈ s.waiting := fun member => by
    rw [waiting, entries_append]
    exact List.mem_append_right _ member
  constructor
  · rintro ⟨now, later, held, first, asleep, entry, second, due⟩
    refine ⟨held, first, UInt64.lt_of_le_of_lt later asleep, entry, second, UInt64.not_le.mp fun order => ?_⟩
    have before := (waits.le_iff fits (inside first) (inside' second)).mpr order
    exact UInt64.not_le.mpr asleep (UInt64.le_trans before due)
  · rintro ⟨held, first, asleep, entry, second, newer⟩
    have before : entry.1 < held.1 := UInt64.not_le.mp fun order =>
      UInt64.not_le.mpr newer ((waits.le_iff fits (inside first) (inside' second)).mp order)
    -- at the other's due time, or now if that has passed
    rcases UInt64.le_total entry.1 s.clock with passed | ahead
    · exact ⟨s.clock, UInt64.le_refl _, held, first, asleep, entry, second, passed⟩
    · exact ⟨entry.1, ahead, held, first, before, entry, second, UInt64.le_refl _⟩

/-- The queue is in due order exactly when its vbuckets were deferred in the order of their last writes, and sleeping on
an entry holds back exactly those whose vbuckets were written before the entry's. -/
theorem due_order_iff_write_order {start : UInt64} {es : List Event}
    (run : exec (step cfg) { clock := start } es = some s)
    (fits : s.clock.toNat + cfg.gWriteCoalesceNs.toNat < 2 ^ 64) :
    (((entries s.deferQueue).map Prod.fst).Pairwise (· ≤ ·) ↔
        ((entries s.deferQueue).map s.lastWrite).Pairwise (· ≤ ·)) ∧
      ((∃ now, s.clock ≤ now ∧ (s.next cfg (.tick now)).HeldBack) ↔
        ∃ held ∈ entries s.loop.held, s.clock < held.1 ∧
          ∃ entry ∈ entries s.deferQueue, s.lastWrite entry < s.lastWrite held) := by
  have waits := waits start ⟨es, run⟩
  refine ⟨waits.pairwise_iff fits ?_, waits.heldBack_iff fits⟩
  rw [waiting, entries_append]
  exact List.subset_append_right ..

end State

/-- Small batches wait 100 ns. -/
def hundred : Config := ⟨64, 100⟩

/-- Vbucket 1 is written at 1050 and vbucket 0 at 1100. -/
def twoWrites : List Event :=
  [.submitOrDefer 1 1000, .take ⟨1, 1000⟩, .write 1 1050, .release 1, .submitOrDefer 0 1060, .take ⟨0, 1060⟩,
    .write 0 1100, .release 0]

/-- The vbucket that was written first is deferred first. -/
theorem due_order_iff_write_order_in_turn : ∃ s,
    exec (State.step hundred) { clock := 1000 } (twoWrites ++ [.submitOrDefer 1 1110, .submitOrDefer 0 1111]) = some s ∧
      (entries s.deferQueue).map Prod.fst = [1150, 1200] ∧
      ((entries s.deferQueue).map s.lastWrite).Pairwise (· ≤ ·) := by
  obtain ⟨s, run, clock, dues⟩ : ∃ s, exec (State.step hundred) { clock := 1000 }
      (twoWrites ++ [.submitOrDefer 1 1110, .submitOrDefer 0 1111]) = some s ∧ s.clock = 1111 ∧
        (entries s.deferQueue).map Prod.fst = [1150, 1200] := exists_exec (by decide +kernel)
  refine ⟨s, run, dues, (State.due_order_iff_write_order run (by rw [clock]; decide)).1.mp ?_⟩
  rw [dues]
  decide

/-- Vbucket 0 is deferred first, until 1200, and vbucket 1 behind it, until 1150. -/
def crossed : List Event := twoWrites ++ [.submitOrDefer 0 1110, .submitOrDefer 1 1111]

/-- The queue is out of order, and at 1160 the thread still sleeps on its head. -/
theorem later_write_deferred_first :
    (∃ s, exec (State.step hundred) { clock := 1000 } crossed = some s ∧
      s.deferQueue.map Deferred.notBeforeNs = [1200, 1150] ∧
      ¬ (s.deferQueue.map Deferred.notBeforeNs).Pairwise (· ≤ ·)) ∧
    ∃ t, exec (State.step hundred) { clock := 1000 } (crossed ++ [.deferTake ⟨1200, some ⟨0, 1110⟩⟩, .tick 1160]) =
      some t ∧ t.HeldBack := by
  constructor
  · exact exists_exec (by decide +kernel)
  · obtain ⟨t, run, clock, held, queue⟩ : ∃ t, exec (State.step hundred) { clock := 1000 }
        (crossed ++ [.deferTake ⟨1200, some ⟨0, 1110⟩⟩, .tick 1160]) = some t ∧ t.clock = 1160 ∧
          entries t.loop.held = [(1200, 0)] ∧ entries t.deferQueue = [(1150, 1)] := exists_exec (by decide +kernel)
    refine ⟨t, run, (1200, 0), ?_, ?_, (1150, 1), ?_, ?_⟩
    · rw [held]
      exact List.mem_singleton_self _
    · rw [clock]
      decide
    · rw [queue]
      exact List.mem_singleton_self _
    · rw [clock]
      decide

end FluxKV.Engine.Coalescing
