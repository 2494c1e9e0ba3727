import FluxKV.Engine.BatchSort
import FluxKV.Machine.Run
import FluxKV.ToMathlib.Placement

/-! # Async-durable completion

A writer whose batch is in the log reads the log's tail and stamps the batch with it. It regroups the
batch by the loop that answers each request, pushes each loop its chain, leaves requests without a loop
to the shard's completion thread, and moves `parkGen_` on. The notifier watches the generation and the
log's durable watermark and posts a drain to the loops that hold requests. A drain takes over what was
pushed to its loop and answers what the watermark covers.

One event is one atomic access or one critical section of one thread. Events carry what their thread
holds in its locals. The queue bytes that the ledger returns are part of the write path's own model.
-/

namespace FluxKV.Durable

open Engine Machine

structure Config where
  batchSort : BatchSort
  sortDupThreshold : ℚ
  /-- The shard a writer works for. -/
  shardOf : ℕ → ℕ

/-- A batch in the log: where its record ends and the position it was stamped with. -/
structure Batch where
  kept : List Request
  dropped : List Request
  recordEnd : ℕ
  lsn : ℕ
deriving DecidableEq, Repr

def Batch.reqs (b : Batch) : List Request := b.kept ++ b.dropped

/-- What a writer has yet to hand over. `begun` records that a chain of the batch was pushed. -/
structure Share where
  groups : List (Option ℕ × List Request)
  orphans : List Request
  lsn : ℕ
  begun : Bool
deriving DecidableEq, Repr

def Share.reqs (share : Share) : List Request := share.groups.flatMap Prod.snd ++ share.orphans

/-- The maximal runs of one `ioOwner` in a batch. -/
def runs : List Request → List (Option ℕ × List Request)
  | [] => []
  | r :: rest =>
    match runs rest with
    | [] => [(r.ioOwner, [r])]
    | (owner, group) :: more =>
      if r.ioOwner = owner then (owner, r :: group) :: more else (r.ioOwner, [r]) :: (owner, group) :: more

/-- Where a writer stands after `WriteDocs`. In `pushing` it has loaded `parkedHead`, in `counting` it has
pushed and not yet raised `parkedCount`. -/
inductive WriterPc where
  | idle
  | written (kept dropped : List Request) (ok : Bool) (recordEnd : ℕ)
  | failing (batch : List Request)
  | stamped (batch : List Request) (lsn : ℕ)
  | parking (share : Share)
  | pushing (t : ℕ) (chain : List Request) (head : Option Request) (share : Share)
  | counting (t n : ℕ) (share : Share)
  | registering (t : ℕ) (share : Share)
  | adding (begun : Bool)
deriving DecidableEq, Repr

namespace WriterPc

def reqs : WriterPc → List Request
  | idle => []
  | written kept dropped _ _ => kept ++ dropped
  | failing batch => batch
  | stamped batch _ => batch
  | parking share => share.reqs
  | pushing _ chain _ share => chain ++ share.reqs
  | counting _ _ share => share.reqs
  | registering _ share => share.reqs
  | adding _ => []

/-- The position a batch was stamped with. -/
def position : WriterPc → Option ℕ
  | stamped _ lsn => some lsn
  | parking share => some share.lsn
  | pushing _ _ _ share => some share.lsn
  | counting _ _ share => some share.lsn
  | registering _ share => some share.lsn
  | _ => none

/-- The batch is being handed over to loops. -/
def shared : WriterPc → Bool
  | parking _ => true
  | pushing _ _ _ _ => true
  | counting _ _ _ => true
  | registering _ _ => true
  | _ => false

/-- The loop and the number of a push that its count does not show yet. -/
def uncounted : WriterPc → Option (ℕ × ℕ)
  | counting t n _ => some (t, n)
  | _ => none

/-- The loop whose registration a writer has yet to make sure of. -/
def enlisting : WriterPc → Option ℕ
  | counting t _ _ => some t
  | registering t _ => some t
  | _ => none

/-- The writer is between its first push and its step of `parkGen_`. -/
def begun : WriterPc → Bool
  | parking share => share.begun
  | pushing _ _ _ share => share.begun
  | counting _ _ share => share.begun
  | registering _ share => share.begun
  | adding begun => begun
  | _ => false

end WriterPc

/-- Where the loop thread stands in `DrainDurable`. In `answering` it has gone through the first `i` of
`parkedLocal`, kept the first `kept` places of it and answered `done`. -/
inductive DrainPc where
  | idle
  | entered
  | cleared
  | taken
  | ready
  | answering (durable i kept done : ℕ)
  | finishing (done : ℕ)
deriving DecidableEq, Repr

/-- No drain is going through `parkedLocal`. -/
def DrainPc.settled : DrainPc → Bool
  | answering .. => false
  | _ => true

/-- The parked fields of an `IOThread`. `parkedHead` is the chain behind the pointer and `drains` the
drains in its mailbox. `uncounted` records the writers that pushed and have not raised the count. -/
structure Loop where
  parkedHead : List Request
  parkedLocal : List Request
  parkedCount : ℤ
  wakeQueued : Bool
  registered : Bool
  drains : ℕ
  pc : DrainPc
  uncounted : List (ℕ × ℕ)
deriving DecidableEq, Repr

/-- The requests of `parkedLocal` that wait. The vector is compacted in place while a drain runs. -/
def Loop.waiting (l : Loop) : List Request :=
  match l.pc with
  | .answering _ i kept _ => l.parkedLocal.take kept ++ l.parkedLocal.drop i
  | _ => l.parkedLocal

def Loop.reqs (l : Loop) : List Request := l.parkedHead ++ l.waiting

theorem Loop.reqs_of_settled {l : Loop} (settled : l.pc.settled = true) :
    l.reqs = l.parkedHead ++ l.parkedLocal := by
  unfold Loop.reqs Loop.waiting
  split
  · next running =>
    rw [running] at settled
    cases settled
  · rfl

/-- A running drain has gone past the places it kept, and its watermark is one the log has reached. -/
def Loop.Ordered (watermark : ℕ) (l : Loop) : Prop :=
  ∀ {durable i kept done}, l.pc = .answering durable i kept done → kept ≤ i ∧ durable ≤ watermark

structure PendingDurable where
  lsn : ℕ
  ok : Bool
  reqs : List Request
deriving DecidableEq, Repr

/-- Where a shard's completion thread stands in `durableLoop`. -/
inductive CompletionPc where
  | idle
  | loaded (durable : ℕ)
  | posting (ready : List PendingDurable)
deriving DecidableEq, Repr

def CompletionPc.ready : CompletionPc → List PendingDurable
  | posting ready => ready
  | _ => []

structure Completion where
  durableQueue : List PendingDurable
  pc : CompletionPc
deriving DecidableEq, Repr

def Completion.reqs (c : Completion) : List Request := (c.durableQueue ++ c.pc.ready).flatMap PendingDurable.reqs

/-- Where the notifier stands in `run`. From `waking` to `posting` it holds `loopsMu_`. -/
inductive NotifierPc where
  | idle
  | gotGen (g : ℕ)
  | gotBoth (g d : ℕ)
  | waking (g d : ℕ) (left : List ℕ)
  | exchanging (g d t : ℕ) (left : List ℕ)
  | posting (g d t : ℕ) (left : List ℕ)
deriving DecidableEq, Repr

def NotifierPc.locked : NotifierPc → Bool
  | waking .. | exchanging .. | posting .. => true
  | _ => false

/-- `gDurableNotifier`: set by `Bucket::Open`, cleared by `Bucket::Close`. -/
inductive NotifierRef where
  | unset
  | set
  | cleared
deriving DecidableEq, Repr

/-- A call of `sendWriteResponse`: whether it says Success, and the watermark at that moment. -/
structure Answer where
  req : Request
  success : Bool
  watermark : ℕ
deriving DecidableEq, Repr

structure State where
  watermark : ℕ
  notifier : NotifierRef
  writers : ℕ → WriterPc
  loops : ℕ → Loop
  /-- `loops_`, in the order they were registered. -/
  registry : List ℕ
  parkGen : ℕ
  pc : NotifierPc
  lastD : ℕ
  lastG : ℕ
  shards : ℕ → Completion
  /-- Requests whose `sendWriteResponse` was posted to their loop. -/
  mail : List Request
  /-- Fields of the requests, as `reset` leaves them in the beginning. -/
  durableLsn : Request → ℕ
  resultOk : Request → Bool
  /-- What happened: requests written, batches stamped, answers, and what each iteration of the notifier
  observed. -/
  accepted : List Request
  batches : List Batch
  answers : List Answer
  finished : List (ℕ × ℕ)

def State.start : State where
  watermark := 0
  notifier := .unset
  writers := fun _ => .idle
  loops := fun _ => ⟨[], [], 0, false, false, 0, .idle, []⟩
  registry := []
  parkGen := 0
  pc := .idle
  lastD := 0
  lastG := 0
  shards := fun _ => ⟨[], .idle⟩
  mail := []
  durableLsn := fun _ => 0
  resultOk := fun _ => true
  accepted := []
  batches := []
  answers := []
  finished := []

inductive Event where
  /-- `WriteDocs` returns, with the end of the batch's record in the log if it succeeded. -/
  | writeDocs (w : ℕ) (batch : List Request) (ok : Bool) (recordEnd : ℕ)
  /-- The writer turns to answering a failed batch. -/
  | fail (w : ℕ) (kept dropped : List Request) (recordEnd : ℕ)
  /-- It posts one failed answer. -/
  | postFailed (w : ℕ) (r : Request) (rest : List Request)
  /-- It has posted all of them. -/
  | failed (w : ℕ)
  /-- It reads `GetWALTailLSN`. -/
  | stamp (w : ℕ) (kept dropped : List Request) (recordEnd lsn : ℕ)
  /-- It finds no notifier and leaves the batch to the completion thread. -/
  | awaitDurable (w : ℕ) (batch : List Request) (lsn : ℕ)
  /-- It finds a notifier, stamps the requests and sorts them by loop. -/
  | group (w : ℕ) (batch sorted : List Request) (lsn : ℕ)
  /-- It sets a group without a loop aside. -/
  | orphan (w : ℕ) (reqs : List Request) (share : Share)
  /-- `Park` loads `parkedHead`. -/
  | loadHead (w t : ℕ) (chain : List Request) (share : Share)
  /-- Its exchange fails, and loads the head again. -/
  | casMiss (w t : ℕ) (chain : List Request) (head : Option Request) (share : Share)
  /-- Its exchange succeeds. -/
  | casPush (w t : ℕ) (chain : List Request) (head : Option Request) (share : Share)
  /-- It raises `parkedCount`. -/
  | addCount (w t n : ℕ) (share : Share)
  /-- It sees the loop registered. -/
  | seeRegistered (w t : ℕ) (share : Share)
  /-- It registers the loop under the lock. -/
  | register (w t : ℕ) (share : Share)
  /-- The writer leaves its orphans to the completion thread. -/
  | handOrphans (w : ℕ) (share : Share)
  /-- `AddBytes` enters the batch into the ledger. -/
  | addBytes (w : ℕ) (share : Share)
  /-- It moves the generation on. -/
  | bumpGen (w : ℕ) (begun : Bool)
  /-- The notifier loads the generation. -/
  | loadGen
  /-- It reads the watermark. -/
  | loadDurable (g : ℕ)
  /-- It finds both unchanged. -/
  | unchanged (g d : ℕ)
  /-- It releases the ledger and locks the loops. -/
  | lockLoops (g d : ℕ)
  /-- It looks at the count of one loop. -/
  | wakeLoad (g d t : ℕ) (left : List ℕ)
  /-- It exchanges that loop's flag. -/
  | wakeExchange (g d t : ℕ) (left : List ℕ)
  /-- It posts a drain there. -/
  | wakePost (g d t : ℕ) (left : List ℕ)
  /-- It unlocks and remembers what it saw. -/
  | wakeDone (g d : ℕ)
  /-- A loop starts a drain from its mailbox. -/
  | drainEnter (t : ℕ)
  /-- The drain clears the flag. -/
  | drainClear (t : ℕ)
  /-- It takes over the chain. -/
  | drainTake (t : ℕ)
  /-- It loads the notifier and gives up if there is none or nothing waits. -/
  | drainCheck (t : ℕ)
  /-- It reads the watermark. -/
  | drainLoad (t : ℕ)
  /-- It answers a request that the watermark covers. -/
  | drainAnswer (t : ℕ) (r : Request) (durable i kept done : ℕ)
  /-- It keeps one that the watermark does not cover. -/
  | drainKeep (t : ℕ) (r : Request) (durable i kept done : ℕ)
  /-- It has looked at all and shortens the vector. -/
  | drainEnd (t durable i kept done : ℕ)
  /-- It lowers `parkedCount`. -/
  | drainSub (t done : ℕ)
  /-- The completion thread reads the watermark. -/
  | completeLoad (shard : ℕ)
  /-- It takes the covered batches off its queue. -/
  | completePop (shard durable : ℕ)
  /-- It posts the answers of one of them. -/
  | completePost (shard : ℕ) (p : PendingDurable) (ready : List PendingDurable)
  /-- It has posted all. -/
  | completeDone (shard : ℕ)
  /-- A loop runs a posted `sendWriteResponse`. -/
  | answer (r : Request)
  /-- The log becomes durable up to a position. -/
  | advance (lsn : ℕ)
  | openNotifier
  | closeNotifier
deriving DecidableEq, Repr

namespace State

def setWriter (s : State) (w : ℕ) (pc : WriterPc) : State := { s with writers := Function.update s.writers w pc }

def setLoop (s : State) (t : ℕ) (l : Loop) : State := { s with loops := Function.update s.loops t l }

def setShard (s : State) (shard : ℕ) (c : Completion) : State :=
  { s with shards := Function.update s.shards shard c }

/-- `AwaitDurable`. -/
def await (s : State) (shard : ℕ) (p : PendingDurable) : State :=
  s.setShard shard { s.shards shard with durableQueue := (s.shards shard).durableQueue ++ [p] }

/-- Post the `sendWriteResponse` of some requests to their loops. -/
def post (s : State) (reqs : List Request) : State := { s with mail := s.mail ++ reqs }

def sendWriteResponse (s : State) (r : Request) : State :=
  { s with answers := s.answers ++ [⟨r, s.resultOk r, s.watermark⟩] }

/-- Whether an event can happen now. -/
def enabled (s : State) : Event → Bool
  | .writeDocs w batch _ _ => s.writers w = .idle ∧ batch.Nodup ∧ ∀ r ∈ batch, r ∉ s.accepted
  | .fail w kept dropped recordEnd => s.writers w = .written kept dropped false recordEnd
  | .postFailed w r rest => s.writers w = .failing (r :: rest)
  | .failed w => s.writers w = .failing []
  | .stamp w kept dropped recordEnd lsn => s.writers w = .written kept dropped true recordEnd ∧ recordEnd ≤ lsn
  | .awaitDurable w batch lsn => s.writers w = .stamped batch lsn ∧ s.notifier ≠ .set
  | .group w batch sorted lsn => s.writers w = .stamped batch lsn ∧ s.notifier = .set ∧ sorted.Perm batch
  | .orphan w reqs share => s.writers w = .parking { share with groups := (none, reqs) :: share.groups }
  | .loadHead w t chain share => s.writers w = .parking { share with groups := (some t, chain) :: share.groups }
  | .casMiss w t chain head share => s.writers w = .pushing t chain head share
  | .casPush w t chain head share =>
    s.writers w = .pushing t chain head share ∧ (s.loops t).parkedHead.head? = head
  | .addCount w t n share => s.writers w = .counting t n share
  | .seeRegistered w t share => s.writers w = .registering t share ∧ (s.loops t).registered
  | .register w t share =>
    s.writers w = .registering t share ∧ (s.loops t).registered = false ∧ s.pc.locked = false
  | .handOrphans w share => s.writers w = .parking share ∧ share.groups = [] ∧ share.orphans ≠ []
  | .addBytes w share => s.writers w = .parking share ∧ share.groups = [] ∧ share.orphans = []
  | .bumpGen w begun => s.writers w = .adding begun
  | .loadGen => s.pc = .idle
  | .loadDurable g => s.pc = .gotGen g
  | .unchanged g d => s.pc = .gotBoth g d ∧ d = s.lastD ∧ g = s.lastG
  | .lockLoops g d => s.pc = .gotBoth g d ∧ (d ≠ s.lastD ∨ g ≠ s.lastG)
  | .wakeLoad g d t left => s.pc = .waking g d (t :: left)
  | .wakeExchange g d t left => s.pc = .exchanging g d t left
  | .wakePost g d t left => s.pc = .posting g d t left
  | .wakeDone g d => s.pc = .waking g d []
  | .drainEnter t => (s.loops t).pc = .idle ∧ 0 < (s.loops t).drains
  | .drainClear t => (s.loops t).pc = .entered
  | .drainTake t => (s.loops t).pc = .cleared
  | .drainCheck t => (s.loops t).pc = .taken
  | .drainLoad t => (s.loops t).pc = .ready
  | .drainAnswer t r durable i kept done =>
    (s.loops t).pc = .answering durable i kept done ∧ (s.loops t).parkedLocal[i]? = some r ∧
      s.durableLsn r ≤ durable
  | .drainKeep t r durable i kept done =>
    (s.loops t).pc = .answering durable i kept done ∧ (s.loops t).parkedLocal[i]? = some r ∧
      durable < s.durableLsn r
  | .drainEnd t durable i kept done =>
    (s.loops t).pc = .answering durable i kept done ∧ i = (s.loops t).parkedLocal.length
  | .drainSub t done => (s.loops t).pc = .finishing done
  | .completeLoad shard => (s.shards shard).pc = .idle
  | .completePop shard durable => (s.shards shard).pc = .loaded durable
  | .completePost shard p ready => (s.shards shard).pc = .posting (p :: ready)
  | .completeDone shard => (s.shards shard).pc = .posting []
  | .answer r => r ∈ s.mail
  | .advance lsn => s.watermark ≤ lsn
  | .openNotifier => s.notifier = .unset
  | .closeNotifier => s.notifier = .set

/-- What an enabled event does. -/
def next (cfg : Config) (s : State) : Event → State
  | .writeDocs w batch ok recordEnd =>
    let plan := planBatch cfg.batchSort cfg.sortDupThreshold batch
    { s with accepted := s.accepted ++ batch }.setWriter w (.written plan.1 plan.2 ok recordEnd)
  | .fail w kept dropped _ => s.setWriter w (.failing (kept ++ dropped))
  | .postFailed w r rest =>
    ({ s with resultOk := Function.update s.resultOk r false }.setWriter w (.failing rest)).post [r]
  | .failed w => s.setWriter w .idle
  | .stamp w kept dropped recordEnd lsn =>
    { s with batches := s.batches ++ [Batch.mk kept dropped recordEnd lsn] }.setWriter w
      (.stamped (kept ++ dropped) lsn)
  | .awaitDurable w batch lsn => (s.setWriter w .idle).await (cfg.shardOf w) ⟨lsn, true, batch⟩
  | .group w batch sorted lsn =>
    { s with durableLsn := fun r => if r ∈ batch then lsn else s.durableLsn r }.setWriter w
      (.parking ⟨runs sorted, [], lsn, false⟩)
  | .orphan w reqs share => s.setWriter w (.parking { share with orphans := share.orphans ++ reqs })
  | .loadHead w t chain share => s.setWriter w (.pushing t chain (s.loops t).parkedHead.head? share)
  | .casMiss w t chain _ share => s.setWriter w (.pushing t chain (s.loops t).parkedHead.head? share)
  | .casPush w t chain _ share =>
    (s.setWriter w (.counting t chain.length { share with begun := true })).setLoop t
      { s.loops t with
        parkedHead := chain ++ (s.loops t).parkedHead
        uncounted := (w, chain.length) :: (s.loops t).uncounted }
  | .addCount w t n share =>
    (s.setWriter w (.registering t share)).setLoop t
      { s.loops t with
        parkedCount := (s.loops t).parkedCount + n
        uncounted := (s.loops t).uncounted.erase (w, n) }
  | .seeRegistered w _ share => s.setWriter w (.parking share)
  | .register w t share =>
    ({ s with registry := s.registry ++ [t] }.setWriter w (.parking share)).setLoop t
      { s.loops t with registered := true }
  | .handOrphans w share =>
    (s.setWriter w (.parking { share with orphans := [] })).await (cfg.shardOf w) ⟨share.lsn, true, share.orphans⟩
  | .addBytes w share => s.setWriter w (.adding share.begun)
  | .bumpGen w _ => { s with parkGen := s.parkGen + 1 }.setWriter w .idle
  | .loadGen => { s with pc := .gotGen s.parkGen }
  | .loadDurable g => { s with pc := .gotBoth g s.watermark }
  | .unchanged g d => { s with pc := .idle, finished := s.finished ++ [(g, d)] }
  | .lockLoops g d => { s with pc := .waking g d s.registry }
  | .wakeLoad g d t left =>
    { s with pc := if 0 < (s.loops t).parkedCount then .exchanging g d t left else .waking g d left }
  | .wakeExchange g d t left =>
    { s with pc := if (s.loops t).wakeQueued then .waking g d left else .posting g d t left }.setLoop t
      { s.loops t with wakeQueued := true }
  | .wakePost g d t left =>
    { s with pc := .waking g d left }.setLoop t { s.loops t with drains := (s.loops t).drains + 1 }
  | .wakeDone g d => { s with pc := .idle, lastD := d, lastG := g, finished := s.finished ++ [(g, d)] }
  | .drainEnter t => s.setLoop t { s.loops t with drains := (s.loops t).drains - 1, pc := .entered }
  | .drainClear t => s.setLoop t { s.loops t with wakeQueued := false, pc := .cleared }
  | .drainTake t =>
    s.setLoop t { s.loops t with
      parkedLocal := (s.loops t).parkedLocal ++ (s.loops t).parkedHead
      parkedHead := []
      pc := .taken }
  | .drainCheck t =>
    s.setLoop t { s.loops t with
      pc := if s.notifier ≠ .set ∨ (s.loops t).parkedLocal = [] then .idle else .ready }
  | .drainLoad t => s.setLoop t { s.loops t with pc := .answering s.watermark 0 0 0 }
  | .drainAnswer t r durable i kept done =>
    (s.setLoop t { s.loops t with pc := .answering durable (i + 1) kept (done + 1) }).sendWriteResponse r
  | .drainKeep t r durable i kept done =>
    s.setLoop t { s.loops t with
      parkedLocal := (s.loops t).parkedLocal.set kept r
      pc := .answering durable (i + 1) (kept + 1) done }
  | .drainEnd t _ _ kept done =>
    s.setLoop t { s.loops t with
      parkedLocal := (s.loops t).parkedLocal.take kept
      pc := if done = 0 then .idle else .finishing done }
  | .drainSub t done =>
    s.setLoop t { s.loops t with parkedCount := (s.loops t).parkedCount - done, pc := .idle }
  | .completeLoad shard => s.setShard shard { s.shards shard with pc := .loaded s.watermark }
  | .completePop shard durable =>
    s.setShard shard
      { durableQueue := (s.shards shard).durableQueue.dropWhile fun p => p.lsn ≤ durable
        pc := .posting ((s.shards shard).durableQueue.takeWhile fun p => p.lsn ≤ durable) }
  | .completePost shard p ready =>
    ({ s with resultOk := fun r => if p.ok = false ∧ r ∈ p.reqs then false else s.resultOk r }.setShard shard
      { s.shards shard with pc := .posting ready }).post p.reqs
  | .completeDone shard => s.setShard shard { s.shards shard with pc := .idle }
  | .answer r => { s with mail := s.mail.erase r }.sendWriteResponse r
  | .advance lsn => { s with watermark := lsn }
  | .openNotifier => { s with notifier := .set }
  | .closeNotifier => { s with notifier := .cleared }

def step (cfg : Config) (s : State) (e : Event) : Option State :=
  if s.enabled e then some (s.next cfg e) else none

theorem step_eq_some {cfg : Config} {s t : State} {e : Event} (taken : s.step cfg e = some t) :
    s.enabled e ∧ s.next cfg e = t :=
  ite_some_eq_some.mp taken

end State

/-- Where a request that was written can be. -/
inductive Place where
  | writer (w : ℕ)
  | loop (t : ℕ)
  | shard (shard : ℕ)
  | mail
  | answered
deriving DecidableEq, Repr

namespace State

def place (s : State) : Place → List Request
  | .writer w => (s.writers w).reqs
  | .loop t => (s.loops t).reqs
  | .shard shard => (s.shards shard).reqs
  | .mail => s.mail
  | .answered => s.answers.map Answer.req

variable (s : State)

@[simp] theorem place_setWriter (w : ℕ) (pc : WriterPc) :
    (s.setWriter w pc).place = Function.update s.place (.writer w) pc.reqs := by
  funext p
  cases p with
  | writer w' => simp only [place, setWriter, Function.update_apply, Place.writer.injEq, apply_ite WriterPc.reqs]
  | _ => rfl

@[simp] theorem place_post (reqs : List Request) :
    (s.post reqs).place = Function.update s.place .mail (s.mail ++ reqs) := by
  funext p
  cases p <;> simp [place, post]

@[simp] theorem place_sendWriteResponse (r : Request) :
    (s.sendWriteResponse r).place = Function.update s.place .answered (s.answers.map Answer.req ++ [r]) := by
  funext p
  cases p <;> simp [place, sendWriteResponse]

@[simp] theorem place_setLoop (t : ℕ) (l : Loop) :
    (s.setLoop t l).place = Function.update s.place (.loop t) l.reqs := by
  funext p
  cases p with
  | loop t' => simp only [place, setLoop, Function.update_apply, Place.loop.injEq, apply_ite Loop.reqs]
  | _ => rfl

@[simp] theorem place_setShard (shard : ℕ) (c : Completion) :
    (s.setShard shard c).place = Function.update s.place (.shard shard) c.reqs := by
  funext p
  cases p with
  | shard shard' => simp only [place, setShard, Function.update_apply, Place.shard.injEq, apply_ite Completion.reqs]
  | _ => rfl

end State

end FluxKV.Durable
