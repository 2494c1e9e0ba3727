import FluxKV.Engine.Dispatch
import FluxKV.Machine.Calls
import FluxKV.Machine.Run

/-! # Answers to GETs

A reader that has collected batches asks magma for them: for one GET by `Get`, for several by `GetDocs` or
`GetDocsMulti`, which return when every operation has been called back, or by `GetDocsAsync`, which leaves the
operations to magma's own threads. There is one operation for each distinct key of a batch and every GET of the key
waits for it. A callback runs on some thread and adds to the accumulator of that thread, which is flushed when the
thread is done with its part of the call. Any number of calls are in progress at a time and the callbacks come in any
order, each operation's once.
-/

namespace FluxKV.Engine.Reads

open Protocol Grouping Machine

/-- A vbucket and what `collectRead` took from its queue. -/
structure Task where
  vbid : UInt16
  batch : List Get
deriving DecidableEq, Repr

/-- `Magma::GetOperation`, with the requests its `UserContext` points to. -/
structure GetOperation where
  vbid : UInt16
  key : Bytes
  reqs : List GetRequest
deriving DecidableEq, Repr

namespace Task

/-- One operation for each distinct key. -/
def getOps (task : Task) : List GetOperation :=
  (groupBy (fun r => r.key) (task.batch.map Get.reset)).map fun g => ⟨task.vbid, g.1, g.2⟩

/-- The batch is from the queue of the vbucket. -/
def Own (task : Task) : Prop := ∀ g ∈ task.batch, g.vbucket = task.vbid

instance (task : Task) : Decidable task.Own := inferInstanceAs (Decidable (∀ _ ∈ _, _))

end Task

/-- How far a call to magma has come. -/
inductive Phase where
  /-- `GetDocs` or `GetDocsMulti` has not returned. -/
  | blocking
  /-- `GetDocsAsync` has not taken the call; while it says `RetryLater` it is tried again. -/
  | offered
  | accepted
  /-- `GetDocsAsync` failed: the reader fails every read of the call. -/
  | refused (status : Status)
deriving DecidableEq, Repr

namespace Phase

/-- Whether an operation can be completed with an answer. -/
def Allows : Phase → Answer → Prop
  | blocking, _ | accepted, _ => True
  | offered, _ => False
  | refused status, a => a = ⟨status, [], []⟩

instance : (phase : Phase) → (a : Answer) → Decidable (phase.Allows a)
  | blocking, _ | accepted, _ => isTrue trivial
  | offered, _ => isFalse id
  | refused _, _ => inferInstanceAs (Decidable (_ = _))

end Phase

/-- `GetDocsAsync` failed for good. -/
def Status.Refusal : Status → Prop
  | error code _ => code ≠ .retryLater
  | _ => False

instance : (status : Status) → Decidable status.Refusal
  | .error .. => inferInstanceAs (Decidable (_ ≠ _))
  | .ok | .okDocNotFound => isFalse id

/-- The threads' accumulators and the calls in progress. A job is a call's part on a thread, with the accumulator the
thread uses. The last three fields record what happened: the GETs that were collected, what magma returned for each
operation, and what left the accumulators. -/
structure State where
  accums : List DispatchAccum
  calls : List Phase
  waiting : List (ℕ × GetOperation)
  jobs : List (ℕ × ℕ)
  asked : List Get
  returned : List (GetOperation × Answer)
  sends : List Send
deriving DecidableEq, Repr

inductive Event where
  /-- `executeRead` with a batch of one: `Magma::Get`, then a post. -/
  | get (vbid : UInt16) (g : Get) (a : Answer)
  /-- `executeRead` up to `GetDocs`. -/
  | executeRead (accum : ℕ) (task : Task)
  /-- `executeReadMulti` up to `GetDocsMulti`. -/
  | executeReadMulti (accum : ℕ) (tasks : List Task)
  /-- `submitReadsAsync` up to `GetDocsAsync`. -/
  | submitReadsAsync (tasks : List Task)
  /-- `GetDocsAsync` returns. -/
  | accept (call : ℕ)
  | refuse (call accum : ℕ) (status : Status)
  /-- One of magma's threads begins with its part of a call. -/
  | startJob (call accum : ℕ)
  /-- The callback of an operation, or `completeGets` for one of a call that failed. -/
  | onDoc (call accum : ℕ) (op : GetOperation) (a : Answer)
  /-- `FlushAll` after `GetDocs`, `GetDocsMulti` or a call that failed, and `OnJobDone`. -/
  | flushAll (call accum : ℕ)
deriving DecidableEq, Repr

namespace State

def initial (threads : ℕ) : State := ⟨List.replicate threads {}, [], [], [], [], [], []⟩

/-- A thread's accumulator. -/
def accum (s : State) (i : ℕ) : DispatchAccum := s.accums.getD i {}

/-- Operations of a call that magma has not called back. -/
def Unfinished (s : State) (call : ℕ) : Prop := ∃ w ∈ s.waiting, w.1 = call

instance (s : State) (call : ℕ) : Decidable (s.Unfinished call) := inferInstanceAs (Decidable (∃ _ ∈ _, _))

def Enabled (cfg : Config) (s : State) : Event → Prop
  | .get vbid g _ => cfg.gAsyncReads = false ∧ cfg.gCacheSeqnoIndex = false ∧ g.vbucket = vbid
  | .executeRead i task =>
    cfg.gAsyncReads = false ∧ i < s.accums.length ∧ task.Own ∧ task.batch ≠ [] ∧
      ¬ (task.batch.length = 1 ∧ cfg.gCacheSeqnoIndex = false)
  | .executeReadMulti i tasks =>
    cfg.gAsyncReads = false ∧ i < s.accums.length ∧ (∀ task ∈ tasks, task.Own) ∧ tasks.flatMap Task.batch ≠ []
  | .submitReadsAsync tasks =>
    cfg.gAsyncReads = true ∧ (∀ task ∈ tasks, task.Own) ∧ tasks.flatMap Task.batch ≠ []
  | .accept call => s.calls[call]? = some .offered
  | .refuse call i status => s.calls[call]? = some .offered ∧ i < s.accums.length ∧ status.Refusal
  | .startJob call i => s.calls[call]? = some .accepted ∧ i < s.accums.length
  | .onDoc call i op a =>
    (call, i) ∈ s.jobs ∧ (call, op) ∈ s.waiting ∧ ∃ phase ∈ s.calls[call]?, phase.Allows a
  | .flushAll call i => (call, i) ∈ s.jobs ∧ (s.calls[call]? = some .accepted ∨ ¬ s.Unfinished call)

instance (cfg : Config) (s : State) : (e : Event) → Decidable (s.Enabled cfg e)
  | .get .. => inferInstanceAs (Decidable (_ ∧ _))
  | .executeRead .. => inferInstanceAs (Decidable (_ ∧ _))
  | .executeReadMulti .. => inferInstanceAs (Decidable (_ ∧ _))
  | .submitReadsAsync .. => inferInstanceAs (Decidable (_ ∧ _))
  | .accept .. => inferInstanceAs (Decidable (_ = _))
  | .refuse .. => inferInstanceAs (Decidable (_ ∧ _))
  | .startJob .. => inferInstanceAs (Decidable (_ ∧ _))
  | .onDoc .. => inferInstanceAs (Decidable (_ ∧ _))
  | .flushAll .. => inferInstanceAs (Decidable (_ ∧ _))

/-- A new call, with the operations of its batches. -/
def begin (s : State) (phase : Phase) (tasks : List Task) : State :=
  { s with
    calls := s.calls ++ [phase]
    waiting := s.waiting ++ (tasks.flatMap Task.getOps).map fun op => (s.calls.length, op)
    asked := s.asked ++ tasks.flatMap Task.batch }

/-- A job on a thread. -/
def withJob (s : State) (call i : ℕ) : State := { s with jobs := (call, i) :: s.jobs }

/-- What a method of a thread's accumulator leaves. -/
def put (s : State) (i : ℕ) (after : DispatchAccum × List Send) : State :=
  { s with accums := s.accums.set i after.1, sends := s.sends ++ after.2 }

def next (cfg : Config) (s : State) : Event → State
  | .get vbid g a =>
    { s with
      asked := s.asked ++ [g]
      returned := s.returned ++ [(⟨vbid, g.key, [g.reset]⟩, a)]
      sends := s.sends ++ [.post g.evb [g.reset.complete a]] }
  | .executeRead i task => (s.begin .blocking [task]).withJob s.calls.length i
  | .executeReadMulti i tasks => (s.begin .blocking tasks).withJob s.calls.length i
  | .submitReadsAsync tasks => s.begin .offered tasks
  | .accept call => { s with calls := s.calls.set call .accepted }
  | .refuse call i status => { s with calls := s.calls.set call (.refused status) }.withJob call i
  | .startJob call i => s.withJob call i
  | .onDoc call i op a =>
    { s.put i (completeGets cfg a op.reqs (s.accum i)) with
      waiting := s.waiting.erase (call, op)
      returned := s.returned ++ [(op, a)] }
  | .flushAll call i => { s.put i (s.accum i).flushAll with jobs := s.jobs.erase (call, i) }

def step (cfg : Config) (s : State) (e : Event) : Option State :=
  if s.Enabled cfg e then some (s.next cfg e) else none

theorem step_eq_some {cfg : Config} {s t : State} {e : Event} :
    s.step cfg e = some t ↔ s.Enabled cfg e ∧ t = s.next cfg e :=
  ite_some_eq_some.trans (and_congr_right fun _ => eq_comm)

end State

/-- The GETs that wait for an operation. -/
def GetOperation.gets (op : GetOperation) : List Get := op.reqs.map GetRequest.toGet

/-- Every request of an operation asks for its document, and has no result yet. -/
def GetOperation.Grouped (op : GetOperation) : Prop :=
  ∀ r ∈ op.reqs, r = r.toGet.reset ∧ r.vbucket = op.vbid ∧ r.key = op.key

theorem gets_getOps (task : Task) : (task.getOps.flatMap GetOperation.gets).Perm task.batch := by
  have all := (members_groupBy (fun r : GetRequest => r.key) (task.batch.map Get.reset)).map GetRequest.toGet
  have same : task.getOps.flatMap GetOperation.gets =
      (members (groupBy (fun r => r.key) (task.batch.map Get.reset))).map GetRequest.toGet := by
    rw [Task.getOps, members, List.flatMap_map, List.map_flatMap]
    rfl
  rw [same]
  refine all.trans (.of_eq ?_)
  rw [List.map_map]
  exact List.map_id _

theorem grouped_getOps {task : Task} (own : task.Own) : ∀ op ∈ task.getOps, op.Grouped := by
  intro op member r inside
  obtain ⟨group, listed, rfl⟩ := List.mem_map.mp member
  have all := members_groupBy (fun r : GetRequest => r.key) (task.batch.map Get.reset)
  obtain ⟨g, asked, rfl⟩ := List.mem_map.mp (all.mem_iff.mp (List.mem_flatMap.mpr ⟨group, listed, inside⟩))
  exact ⟨rfl, own g asked, keyed_groupBy _ _ group listed _ inside⟩

/-- The request was told what magma returned for the operation that it waited for, which is of its own document. -/
def Told (returned : List (GetOperation × Answer)) (r : GetRequest) : Prop :=
  ∃ back ∈ returned, r.toGet.reset ∈ back.1.reqs ∧ back.1.vbid = r.vbucket ∧ back.1.key = r.key ∧
    r = r.toGet.told back.2

theorem Told.mono {returned more : List (GetOperation × Answer)} {r : GetRequest} (sub : returned ⊆ more)
    (told : Told returned r) : Told more r := by
  obtain ⟨back, member, same⟩ := told
  exact ⟨back, sub member, same⟩

theorem toGet_complete (req : GetRequest) (a : Answer) : (req.complete a).toGet = req.toGet := by
  rw [GetRequest.complete]
  split <;> rfl

/-- A callback tells every request that waits for the operation. -/
theorem GetOperation.Grouped.told {op : GetOperation} (grouped : op.Grouped) (a : Answer)
    (earlier : List (GetOperation × Answer)) :
    ∀ r ∈ op.reqs.map fun req => req.complete a, Told (earlier ++ [(op, a)]) r := by
  intro r member
  obtain ⟨req, inside, rfl⟩ := List.mem_map.mp member
  obtain ⟨fresh, vbid, key⟩ := grouped req inside
  refine ⟨(op, a), List.mem_append_right _ (List.mem_singleton_self _), ?_⟩
  rw [toGet_complete]
  refine ⟨fresh ▸ inside, vbid.symm, key.symm, ?_⟩
  rw [← complete_reset, ← fresh]

namespace State

/-- The GETs of the operations that magma has not called back. -/
def pending (s : State) : List Get := s.waiting.flatMap fun w => w.2.gets

/-- The requests that wait in some accumulator. -/
def held (s : State) : List GetRequest := s.accums.flatMap DispatchAccum.held

/-- The requests that were handed on. -/
def sent (s : State) : List GetRequest := s.sends.flatMap Send.batch

/-- The requests that were handed on, with the connection whose method got each. -/
def handed (s : State) : List (ℕ × GetRequest) := s.sends.flatMap Send.handed

/-- Each GET waits for magma, waits in an accumulator or was handed on, and it was told its own answer. A thread whose
accumulator holds something has a job, at the end of which it flushes. -/
structure Sound (s : State) : Prop where
  sorted : ∀ accum ∈ s.accums, accum.Sorted
  proper : ∀ send ∈ s.sends, send.Proper
  asked : s.asked.Perm (s.pending ++ (s.held ++ s.sent).map GetRequest.toGet)
  grouped : ∀ w ∈ s.waiting, w.2.Grouped
  told : ∀ r ∈ s.held ++ s.sent, Told s.returned r
  inRange : ∀ job ∈ s.jobs, job.2 < s.accums.length
  busy : ∀ i, (s.accum i).held ≠ [] → ∃ call, (call, i) ∈ s.jobs

variable {cfg : Config} {s : State} {i : ℕ}

theorem getElem?_accum (inRange : i < s.accums.length) : s.accums[i]? = some (s.accum i) := by
  rw [accum, List.getD_eq_getElem?_getD, List.getElem?_eq_getElem inRange]
  rfl

theorem perm_put {incoming : List GetRequest} {after : DispatchAccum × List Send} (inRange : i < s.accums.length)
    (moves : (s.accum i).Moves incoming after) :
    ((s.put i after).held ++ (s.put i after).sent).Perm (incoming ++ (s.held ++ s.sent)) := by
  have all := flatMap_set_perm (getElem?_accum inRange) moves.conserved
  refine List.perm_iff_count.mpr fun r => ?_
  have all := List.perm_iff_count.mp all r
  simp only [put, held, sent, List.flatMap_append, List.count_append] at all ⊢
  omega

theorem accum_put_self {after : DispatchAccum × List Send} (inRange : i < s.accums.length) :
    (s.put i after).accum i = after.1 := by
  rw [accum, put, List.getD_eq_getElem?_getD, List.getElem?_set_self inRange]
  rfl

theorem accum_put_of_ne {after : DispatchAccum × List Send} {j : ℕ} (apart : i ≠ j) :
    (s.put i after).accum j = s.accum j := by
  rw [accum, accum, put, List.getD_eq_getElem?_getD, List.getD_eq_getElem?_getD, List.getElem?_set_ne apart]

theorem held_initial (threads : ℕ) : (initial threads).held = [] :=
  List.flatMap_eq_nil_iff.mpr fun accum member => by rw [List.eq_of_mem_replicate member]; rfl

theorem pending_begin (s : State) (phase : Phase) (tasks : List Task) :
    (s.begin phase tasks).pending.Perm (s.pending ++ tasks.flatMap Task.batch) := by
  have new : (tasks.flatMap fun task => task.getOps.flatMap GetOperation.gets).Perm (tasks.flatMap Task.batch) :=
    .flatMap_left _ fun task _ => gets_getOps task
  simp only [pending, begin, List.flatMap_append, List.flatMap_map, ← List.flatMap_assoc] at new ⊢
  exact new.append_left _

namespace Sound

theorem initial (threads : ℕ) : (initial threads).Sound where
  sorted accum member := by
    rw [List.eq_of_mem_replicate member]
    exact ⟨fun _ none => (List.not_mem_nil none).elim, fun _ none => (List.not_mem_nil none).elim⟩
  proper _ member := (List.not_mem_nil member).elim
  asked := by
    rw [held_initial]
    exact .refl _
  grouped _ member := (List.not_mem_nil member).elim
  told r member := by
    rw [held_initial] at member
    exact (List.not_mem_nil member).elim
  inRange _ member := (List.not_mem_nil member).elim
  busy i holds := by
    refine absurd ?_ holds
    rw [accum, List.getD_eq_getElem?_getD, State.initial, List.getElem?_replicate]
    split <;> rfl

/-- A new call waits for every GET of its batches. -/
theorem begin (sound : s.Sound) (phase : Phase) {tasks : List Task} (own : ∀ task ∈ tasks, task.Own) :
    (s.begin phase tasks).Sound where
  sorted := sound.sorted
  proper := sound.proper
  asked := by
    refine (sound.asked.append_right _).trans ?_
    rw [List.append_assoc]
    refine (List.perm_append_comm.append_left _).trans ?_
    rw [← List.append_assoc]
    exact (pending_begin s phase tasks).symm.append_right _
  grouped := by
    refine List.forall_mem_append.mpr ⟨sound.grouped, fun w member => ?_⟩
    obtain ⟨op, inside, rfl⟩ := List.mem_map.mp member
    obtain ⟨task, listed, inside⟩ := List.mem_flatMap.mp inside
    exact grouped_getOps (own task listed) op inside
  told := sound.told
  inRange := sound.inRange
  busy := sound.busy

theorem withJob (sound : s.Sound) (call : ℕ) (inRange : i < s.accums.length) : (s.withJob call i).Sound where
  sorted := sound.sorted
  proper := sound.proper
  asked := sound.asked
  grouped := sound.grouped
  told := sound.told
  inRange := List.forall_mem_cons.mpr ⟨inRange, sound.inRange⟩
  busy j holds := (sound.busy j holds).imp fun _ => List.mem_cons_of_mem _

/-- The invariant does not look at the phases. -/
theorem withCalls (sound : s.Sound) (calls : List Phase) : { s with calls }.Sound :=
  ⟨sound.sorted, sound.proper, sound.asked, sound.grouped, sound.told, sound.inRange, sound.busy⟩

theorem get (sound : s.Sound) (g : Get) (a : Answer) : (s.next cfg (.get g.vbucket g a)).Sound where
  sorted := sound.sorted
  proper := List.forall_mem_append.mpr
    ⟨sound.proper, List.forall_mem_singleton.mpr (List.forall_mem_singleton.mpr (by rw [toGet_complete]; rfl))⟩
  asked := by
    refine (sound.asked.append_right [g]).trans (.of_eq ?_)
    simp only [next, pending, held, sent, List.flatMap_append, List.flatMap_singleton, Send.batch, List.map_append,
      List.append_assoc, List.map_cons, List.map_nil, toGet_complete, Get.reset]
  grouped := sound.grouped
  told := by
    have grouped : (GetOperation.mk g.vbucket g.key [g.reset]).Grouped :=
      List.forall_mem_singleton.mpr ⟨rfl, rfl, rfl⟩
    simp only [next, held, sent, List.flatMap_append, List.flatMap_singleton, ← List.append_assoc]
    refine List.forall_mem_append.mpr ⟨fun r member => ?_, grouped.told a s.returned⟩
    exact (sound.told r member).mono (List.subset_append_left ..)
  inRange := sound.inRange
  busy := sound.busy

theorem onDoc (sound : s.Sound) {call : ℕ} {op : GetOperation} (job : (call, i) ∈ s.jobs)
    (waits : (call, op) ∈ s.waiting) (a : Answer) : (s.next cfg (.onDoc call i op a)).Sound := by
  have inRange : i < s.accums.length := sound.inRange _ job
  have moves := completeGets_moves cfg (sound.sorted _ (List.mem_of_getElem? (getElem?_accum inRange))) a op.reqs
  have moved := perm_put inRange moves
  refine ⟨?_, ?_, ?_, ?_, ?_, ?_, ?_⟩
  · exact forall_mem_set moves.sorted sound.sorted
  · exact List.forall_mem_append.mpr ⟨sound.proper, moves.proper⟩
  · have waited : s.pending.Perm (op.gets ++ (s.waiting.erase (call, op)).flatMap fun w => w.2.gets) :=
      (List.perm_cons_erase waits).flatMap_right _
    have told : (op.reqs.map fun req => req.complete a).map GetRequest.toGet = op.gets := by
      simp only [List.map_map, GetOperation.gets, Function.comp_def, toGet_complete]
    have answered := (moved.map GetRequest.toGet).trans (.of_eq List.map_append)
    rw [told] at answered
    refine sound.asked.trans ((waited.append_right _).trans ?_)
    rw [List.append_assoc]
    exact (List.perm_append_comm_assoc ..).trans (answered.symm.append_left _)
  · exact fun w member => sound.grouped w (List.mem_of_mem_erase member)
  · intro r member
    rcases List.mem_append.mp (moved.mem_iff.mp member) with new | old
    · exact (sound.grouped _ waits).told a s.returned r new
    · exact (sound.told r old).mono (List.subset_append_left ..)
  · exact fun job member => (List.length_set ..).symm ▸ sound.inRange job member
  · intro j holds
    rcases eq_or_ne i j with rfl | other
    · exact ⟨call, job⟩
    · exact sound.busy j (by rwa [← accum_put_of_ne other])

theorem flushAll (sound : s.Sound) {call : ℕ} (job : (call, i) ∈ s.jobs) :
    (s.next cfg (.flushAll call i)).Sound := by
  have inRange : i < s.accums.length := sound.inRange _ job
  have moves := DispatchAccum.flushAll_moves (sound.sorted _ (List.mem_of_getElem? (getElem?_accum inRange)))
  have moved := perm_put inRange moves
  refine ⟨?_, ?_, ?_, sound.grouped, ?_, ?_, ?_⟩
  · exact forall_mem_set moves.sorted sound.sorted
  · exact List.forall_mem_append.mpr ⟨sound.proper, moves.proper⟩
  · exact sound.asked.trans ((moved.map _).symm.append_left _)
  · exact fun r member => sound.told r (moved.mem_iff.mp member)
  · exact fun job member => (List.length_set ..).symm ▸ sound.inRange job (List.mem_of_mem_erase member)
  · intro j holds
    rcases eq_or_ne i j with rfl | other
    · exact absurd (DispatchAccum.held_flushAll (s.accum i)) (by rwa [← accum_put_self inRange])
    · obtain ⟨busy, member⟩ := sound.busy j (by rwa [← accum_put_of_ne other])
      exact ⟨busy, (List.mem_erase_of_ne fun same => other (congrArg Prod.snd same).symm).mpr member⟩

theorem step {t : State} {e : Event} (sound : s.Sound) (taken : s.step cfg e = some t) : t.Sound := by
  obtain ⟨able, rfl⟩ := step_eq_some.mp taken
  cases e with
  | get vbid g a =>
    obtain ⟨_, _, rfl⟩ := able
    exact sound.get g a
  | executeRead i task => exact (sound.begin _ (List.forall_mem_singleton.mpr able.2.2.1)).withJob _ able.2.1
  | executeReadMulti i tasks => exact (sound.begin _ able.2.2.1).withJob _ able.2.1
  | submitReadsAsync tasks => exact sound.begin _ able.2.1
  | accept call => exact sound.withCalls _
  | refuse call i status => exact (sound.withCalls _).withJob call able.2.1
  | startJob call i => exact sound.withJob call able.2
  | onDoc call i op a => exact sound.onDoc able.1 able.2.1 a
  | flushAll call i => exact sound.flushAll able.1

/-- With no job left, nothing waits in an accumulator. -/
theorem held_eq_nil (sound : s.Sound) (done : s.jobs = []) : s.held = [] := by
  refine List.flatMap_eq_nil_iff.mpr fun accum member => ?_
  obtain ⟨i, here⟩ := List.mem_iff_getElem?.mp member
  by_contra holds
  have same : s.accum i = accum := by rw [State.accum, List.getD_eq_getElem?_getD, here]; rfl
  obtain ⟨call, job⟩ := sound.busy i (same.symm ▸ holds)
  rw [done] at job
  exact List.not_mem_nil job

theorem of_reach {threads : ℕ} (reached : Reach (State.step cfg) (State.initial threads) s) : s.Sound :=
  reached.invariant (initial threads) fun sound taken => sound.step taken

end Sound

theorem handed_map_snd (s : State) : s.handed.map Prod.snd = s.sent := by
  rw [handed, sent, List.map_flatMap]
  exact congrArg (s.sends.flatMap ·) (funext Send.handed_map_snd)

/-- At any time of any run, every GET that was collected is in one place: it waits for magma, it waits in an
accumulator, or it was handed on, once, to its own connection, on its own loop if it was posted, and with what magma
returned for its own document. `FlushAll` leaves nothing in the accumulator. Once magma has called back for every
operation, each thread that still has a job is about to flush, and when it has, every GET was handed on. -/
theorem gets_answered_once {threads : ℕ} (reached : Reach (State.step cfg) (State.initial threads) s) :
    s.asked.Perm (s.pending ++ s.held.map GetRequest.toGet ++ s.handed.map fun h => h.2.toGet) ∧
      (∀ send ∈ s.sends, send.Proper) ∧
      (∀ h ∈ s.handed, h.1 = h.2.conn ∧ Told s.returned h.2) ∧
      (∀ call i t, s.step cfg (.flushAll call i) = some t → (t.accum i).held = []) ∧
      (s.waiting = [] → (∀ job ∈ s.jobs, ∃ t, s.step cfg (.flushAll job.1 job.2) = some t) ∧
        (s.jobs = [] → s.held = [] ∧ (s.handed.map fun h => h.2.toGet).Perm s.asked)) := by
  have sound := Sound.of_reach reached
  have sent : (s.handed.map fun h => h.2.toGet) = s.sent.map GetRequest.toGet := by
    rw [← handed_map_snd, List.map_map]
    rfl
  have placed := sound.asked
  rw [List.map_append, ← List.append_assoc, ← sent] at placed
  refine ⟨placed, sound.proper, fun h member => ?_, fun call i t taken => ?_, fun called => ⟨fun job member => ?_, ?_⟩⟩
  · obtain ⟨send, listed, inside⟩ := List.mem_flatMap.mp member
    have there : h.2 ∈ s.sent := handed_map_snd s ▸ List.mem_map_of_mem member
    exact ⟨(sound.proper send listed).own h inside, sound.told _ (List.mem_append_right _ there)⟩
  · obtain ⟨able, rfl⟩ := step_eq_some.mp taken
    have inRange := sound.inRange _ able.1
    exact (congrArg DispatchAccum.held (accum_put_self inRange)).trans (DispatchAccum.held_flushAll _)
  · refine ⟨_, step_eq_some.mpr ⟨⟨member, .inr ?_⟩, rfl⟩⟩
    rintro ⟨w, waits, _⟩
    rw [called] at waits
    exact List.not_mem_nil waits
  · intro done
    have none := sound.held_eq_nil done
    rw [pending, called, none] at placed
    exact ⟨none, placed.symm⟩

end State

/-- Responses are sent by the readers themselves. -/
def directReads : Config where
  gDirectSend := true
  gDispatchBatch := 16
  gAsyncReads := false
  gCacheSeqnoIndex := false

/-- Three GETs for two keys, from two connections. -/
def hotKey : List Get := [⟨0, 1, 4, 9, [107]⟩, ⟨1, 2, 5, 9, [108]⟩, ⟨2, 2, 5, 9, [107]⟩]

def hotKeyDoc : Answer := ⟨.ok, DocMeta.encode ⟨7, 7, 1, 3, 0, 0, 1⟩, [65]⟩
def otherDoc : Answer := ⟨.ok, DocMeta.encode ⟨8, 8, 1, 0, 0, 0, 0⟩, [66]⟩

/-- The operation that came second is called back first. -/
def hotKeyRead : List Event :=
  [.executeRead 0 ⟨9, hotKey⟩,
    .onDoc 0 0 ⟨9, [108], [Get.reset ⟨1, 2, 5, 9, [108]⟩]⟩ otherDoc,
    .onDoc 0 0 ⟨9, [107], [Get.reset ⟨0, 1, 4, 9, [107]⟩, Get.reset ⟨2, 2, 5, 9, [107]⟩]⟩ hotKeyDoc,
    .flushAll 0 0]

/-- Each request with the connection it goes to. -/
def hotKeyHanded : List (ℕ × GetRequest) :=
  [(2, ⟨⟨1, 2, 5, 9, [108]⟩, .ok, 8, 0, 0, [66]⟩), (2, ⟨⟨2, 2, 5, 9, [107]⟩, .ok, 7, 3, 1, [65]⟩),
    (1, ⟨⟨0, 1, 4, 9, [107]⟩, .ok, 7, 3, 1, [65]⟩)]

theorem gets_answered_once_hot_key : ∃ s, Reach (State.step directReads) (State.initial 1) s ∧ s.asked = hotKey ∧
    s.handed = hotKeyHanded ∧ (s.handed.map fun h => h.2.toGet).Perm s.asked := by
  obtain ⟨s, reached, asked, handed, called, done⟩ : ∃ s, Reach (State.step directReads) (State.initial 1) s ∧
      s.asked = hotKey ∧ s.handed = hotKeyHanded ∧ s.waiting = [] ∧ s.jobs = [] :=
    exists_reach hotKeyRead (by decide +kernel)
  obtain ⟨_, _, _, _, finish⟩ := State.gets_answered_once reached
  exact ⟨s, reached, asked, handed, ((finish called).2 done).2⟩

/-- A GET of a key that magma does not have is not told the status that magma returned. -/
theorem not_found_told_as_error : ∃ s, Reach (State.step directReads) (State.initial 1) s ∧
    s.returned.map (fun back => back.2.status) = [.okDocNotFound] ∧
    s.handed.map (fun h => h.2.resultStatus) = [.error .internal "key-not-found"] :=
  exists_reach [.get 9 ⟨0, 1, 4, 9, [107]⟩ ⟨.okDocNotFound, [], []⟩] (by decide +kernel)

end FluxKV.Engine.Reads
