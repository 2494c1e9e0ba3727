import FluxKV.Engine.Answers
import FluxKV.Engine.DispatcherStats
import FluxKV.Engine.ReadReplies

/-! # The counters over whole runs

The write path, the loops that answer parked writes, the GET handlers and the readers run side by side and add to the
counters where the source does: a handler counts the request, and whoever has the outcome counts the response, by ones
or a batch at a time. A write that the queue limit refuses is counted as a request, and nobody counts its response. So
when nothing is in flight the counters are apart by the number of refused writes.

What a lookup and the documents of a read do to the cache are events of the write path, and come in any order with the
events here.
-/

namespace FluxKV.Engine.Counters

open Protocol Machine Reads

/-- `echo` is whether the connections have an `echoResponseBuf_`. -/
structure Config where
  writes : Engine.Config
  reads : Reads.Config
  echo : Bool
  gStatsHotPath : Bool

/-- The two machines, what lies between them and their callers, and the counters. A parked write comes with its
`durableLsn`; its loop is its `ioOwner`. The last two fields record the refused writes and those that were answered
for. -/
structure State (cfg : Config) where
  writes : Engine.State cfg.writes
  parkedHead : List (Request × ℕ)
  parkedLocal : List (Request × ℕ)
  getQueue : List Get
  reads : Reads.State
  stats : DispatcherStats
  refused : List Request
  answered : List Request

inductive Action where
  /-- A step of the write path. -/
  | write (e : Engine.Event)
  /-- `DrainDurable` takes what was parked on its loop. -/
  | takeParked (loop : ℕ)
  /-- It answers what is durable. -/
  | drainDurable (loop durable : ℕ)
  /-- `handleGet`, which looks into the cache if there is one and the request has a body. -/
  | handleGet (g : Get) (looks : Bool)
  /-- A round of `serveCachedGets`. -/
  | serveCachedGet (key : DocKey)
  /-- A step of the readers. -/
  | read (e : Reads.Event)
deriving DecidableEq, Repr

def Action.writes : Action → List Engine.Event
  | .write e => [e]
  | _ => []

/-- An action, and the slot of the thread that takes it. -/
structure Event where
  slot : Fin kStatSlots
  action : Action
deriving DecidableEq, Repr

/-- The GETs a reader takes from the queues. -/
def collected : Reads.Event → List Get
  | .get _ g _ => [g]
  | .executeRead _ task => task.batch
  | .executeReadMulti _ tasks | .submitReadsAsync tasks => tasks.flatMap Task.batch
  | _ => []

def getResponse (hit : Bool) : Counter := if hit then .cmdGetResp else .cmdGetRespMiss

namespace State

variable {cfg : Config}

def initial (cfg : Config) (maxBytes : ℕ) (store : UInt16 → Store) (seqnos : UInt16 → ℕ) (threads : ℕ) :
    State cfg where
  writes := .initial cfg.writes maxBytes store seqnos
  parkedHead := []
  parkedLocal := []
  getQueue := []
  reads := .initial threads
  stats := .initial
  refused := []
  answered := []

/-- The write is parked on the loop. -/
def ofLoop (loop : ℕ) (p : Request × ℕ) : Bool := p.1.ioOwner = some loop

/-- What `DrainDurable` answers. -/
def durableOf (loop durable : ℕ) (p : Request × ℕ) : Bool := ofLoop loop p && decide (p.2 ≤ durable)

/-- What a writer parks. -/
def parkedBy (s : State cfg) : Engine.Event → List (Request × ℕ)
  | .park vb => (s.writes.parks (.park vb)).map (·, (s.writes.writer vb).lsn)
  | _ => []

/-- The count for a GET that the cache answers. -/
def cacheResponse (s : State cfg) (key : DocKey) : Bumps :=
  match s.writes.cache.contents key with
  | none => []
  | some p => [(getResponse !p.doc.content.deleted, 1)]

/-- What an action adds to the counters. -/
def bumps (s : State cfg) : Action → Bumps
  | .write (.put r _) => [(if r.opcode = .delete then .cmdDelete else .cmdSet, 1)]
  | .write (.settle vb) =>
    let c := if (s.writes.writer vb).ok then Counter.cmdSetResp else .cmdSetRespErr
    let batch := (s.writes.writer vb).batch
    if cfg.writes.durable then batch.map fun _ => (c, 1) else [(c, batch.length)]
  -- only batches that were written are left to the completion thread
  | .write (.durableSub _ p) => [(.cmdSetResp, p.reqs.length)]
  | .drainDurable loop durable =>
    let done := s.parkedLocal.filter (durableOf loop durable)
    if done = [] then [] else [(.cmdSetResp, done.length)]
  | .handleGet g looks =>
    (.cmdGet, 1) ::
      if cfg.echo then [(.cmdGetResp, 1)] else if looks then s.cacheResponse (g.vbucket, g.key) else []
  | .serveCachedGet key => (.cmdGet, 1) :: s.cacheResponse key
  | .read (.get _ _ a) => [(getResponse a.hit, 1)]
  | .read (.onDoc _ _ op a) => op.reqs.map fun _ => (getResponse a.hit, 1)
  | _ => []

/-- The handler finds the response in the cache or echoes. -/
def AnsweredAtOnce (s : State cfg) (g : Get) (looks : Bool) : Prop :=
  cfg.echo = true ∨ looks = true ∧ s.writes.cache.contents (g.vbucket, g.key) ≠ none

instance (s : State cfg) (g : Get) (looks : Bool) : Decidable (s.AnsweredAtOnce g looks) :=
  inferInstanceAs (Decidable (_ ∨ _))

def Enabled (s : State cfg) : Action → Prop
  | .write e => s.writes.enabled e = true
  | .takeParked _ => True
  | .drainDurable _ durable => durable ≤ s.writes.watermark
  | .handleGet _ _ => True
  | .serveCachedGet key => cfg.echo = false ∧ s.writes.cache.contents key ≠ none
  | .read e => s.reads.Enabled cfg.reads e ∧ (collected e).Subperm s.getQueue

instance (s : State cfg) : (a : Action) → Decidable (s.Enabled a)
  | .write _ => inferInstanceAs (Decidable (_ = _))
  | .takeParked _ | .handleGet _ _ => isTrue trivial
  | .drainDurable _ _ => inferInstanceAs (Decidable (_ ≤ _))
  | .serveCachedGet _ => inferInstanceAs (Decidable (_ ∧ _))
  | .read _ => inferInstanceAs (Decidable (_ ∧ _))

/-- What an action does besides the hot counters. -/
def act (s : State cfg) : Action → State cfg
  | .write e =>
    { s with
      writes := s.writes.next e
      parkedHead := s.parkedHead ++ s.parkedBy e
      stats := { s.stats with tmpFails := s.stats.tmpFails + .ofNat e.refuses.length }
      refused := s.refused ++ e.refuses
      answered := s.answered ++ s.writes.answers e }
  | .takeParked loop =>
    { s with
      parkedHead := s.parkedHead.filter fun p => !ofLoop loop p
      parkedLocal := s.parkedLocal ++ s.parkedHead.filter (ofLoop loop) }
  | .drainDurable loop durable =>
    { s with
      parkedLocal := s.parkedLocal.filter fun p => !durableOf loop durable p
      answered := s.answered ++ (s.parkedLocal.filter (durableOf loop durable)).map Prod.fst }
  | .handleGet g looks => if s.AnsweredAtOnce g looks then s else { s with getQueue := s.getQueue ++ [g] }
  | .serveCachedGet _ => s
  | .read e =>
    { s with
      getQueue := s.getQueue.diff (collected e)
      reads := s.reads.next cfg.reads e }

def next (s : State cfg) (e : Event) : State cfg :=
  let after := s.act e.action
  { after with stats := after.stats.hotStatAdds cfg.gStatsHotPath e.slot (s.bumps e.action) }

def step (s : State cfg) (e : Event) : Option (State cfg) := if s.Enabled e.action then some (s.next e) else none

theorem step_eq_some {s t : State cfg} {e : Event} : s.step e = some t ↔ s.Enabled e.action ∧ t = s.next e :=
  ite_some_eq_some.trans (and_congr_right fun _ => eq_comm)

/-- The write path's part of a run is a run of the write path. -/
theorem writes_of_exec {s t : State cfg} {tape : List Event} (run : exec step s tape = some t) :
    exec Engine.State.step s.writes (tape.flatMap fun e => e.action.writes) = some t.writes := by
  induction tape generalizing s with
  | nil => exact congrArg (Option.map State.writes) run
  | cons e rest ih =>
    obtain ⟨mid, taken, run⟩ := exec_cons_eq_some.mp run
    obtain ⟨able, rfl⟩ := step_eq_some.mp taken
    rw [List.flatMap_cons, exec_append]
    suffices first : exec Engine.State.step s.writes e.action.writes = some (s.next e).writes by
      rw [first]
      exact ih run
    obtain ⟨slot, a⟩ := e
    cases a with
    | write w => exact exec_cons_eq_some.mpr ⟨_, Engine.State.step_eq_some.mpr ⟨able, rfl⟩, rfl⟩
    | handleGet g looks =>
      simp only [next, act]
      split <;> rfl
    | _ => rfl

/-- No request is in flight: every handler has returned, nothing is queued, and every write that was staged and every
GET that was queued has been answered. -/
structure Quiet (s : State cfg) : Prop where
  handlers : ∀ t r, s.writes.pc t ≠ .handling r ∧ s.writes.pc t ≠ .refused r
  staged : ∀ t vb, s.writes.vbs t vb = []
  queued : ∀ vb, s.writes.list vb = []
  written : ∀ vb, (s.writes.writer vb).unanswered = []
  durable : ∀ shard, s.writes.durableQueue shard = [] ∧ s.writes.ready shard = []
  parked : s.parkedHead = [] ∧ s.parkedLocal = []
  gets : s.getQueue = []
  reads : s.reads.waiting = [] ∧ s.reads.held = []

variable {s : State cfg} {a : Action}

theorem isRequest_getResponse (hit : Bool) : (getResponse hit).isRequest = false := by
  cases hit <;> rfl

theorem map_fst_parkedBy (e : Engine.Event) : (s.parkedBy e).map Prod.fst = s.writes.parks e := by
  cases e with
  | park vb => simp only [parkedBy, List.map_map, Function.comp_def, List.map_id']
  | _ => rfl

/-- Every write that was put is with its handler, staged or refused, and every one that was swept waits for its answer,
is parked, or was answered for. -/
structure Placed (s : State cfg) : Prop where
  flow : s.writes.Flow
  answering : s.writes.Answering
  puts : ∀ r, s.writes.hist.puts.count r =
    (s.writes.pc r.thread).handled.count r + s.writes.hist.accepted.count r + s.refused.count r
  swept : ∀ r, (s.writes.hist.swept r.vbucket).flatten.count r =
    s.writes.unanswered r + ((s.parkedHead ++ s.parkedLocal).map Prod.fst).count r + s.answered.count r

namespace Placed

theorem initial (maxBytes : ℕ) (store : UInt16 → Store) (seqnos : UInt16 → ℕ) (threads : ℕ) :
    (initial cfg maxBytes store seqnos threads).Placed where
  flow := .initial maxBytes store seqnos
  answering := .initial maxBytes store seqnos
  puts _ := rfl
  swept _ := rfl

theorem write (placed : s.Placed) {e : Engine.Event} (able : s.writes.enabled e) :
    (s.act (.write e)).Placed where
  flow := placed.flow.step (Engine.State.step_eq_some.mpr ⟨able, rfl⟩)
  answering := placed.answering.next placed.flow.homes able
  puts r := by
    have before := placed.puts r
    have moved := Engine.State.handled_next placed.flow.homes r able
    simp only [act, Engine.State.hist_puts_next, Engine.State.hist_accepted_next, List.count_append] at moved ⊢
    omega
  swept r := by
    have before := placed.swept r
    have moved := Engine.State.unanswered_next placed.flow.homes placed.answering able r
    simp only [act, List.map_append, map_fst_parkedBy, List.count_append] at before ⊢
    omega

/-- Parked writes that move or are answered for. -/
theorem moveParked (placed : s.Placed) {head left done : List (Request × ℕ)}
    (moved : (head ++ left ++ done).Perm (s.parkedHead ++ s.parkedLocal)) :
    { s with parkedHead := head, parkedLocal := left, answered := s.answered ++ done.map Prod.fst }.Placed where
  flow := placed.flow
  answering := placed.answering
  puts := placed.puts
  swept r := by
    have before := placed.swept r
    have same := (moved.map Prod.fst).count_eq r
    simp only [List.map_append, List.count_append] at before same ⊢
    omega

theorem act (placed : s.Placed) (able : s.Enabled a) : (s.act a).Placed := by
  cases a with
  | write e => exact placed.write able
  | takeParked loop =>
    have moved : (s.parkedHead.filter (fun p => !ofLoop loop p) ++
        (s.parkedLocal ++ s.parkedHead.filter (ofLoop loop)) ++ []).Perm (s.parkedHead ++ s.parkedLocal) := by
      refine List.perm_iff_count.mpr fun p => ?_
      have split := (List.filter_append_perm (ofLoop loop) s.parkedHead).count_eq p
      simp only [List.count_append, List.count_nil] at split ⊢
      omega
    have after := placed.moveParked moved
    rwa [List.map_nil, List.append_nil] at after
  | drainDurable loop durable =>
    refine placed.moveParked (List.perm_iff_count.mpr fun p => ?_)
    have split := (List.filter_append_perm (durableOf loop durable) s.parkedLocal).count_eq p
    simp only [List.count_append] at split ⊢
    omega
  | handleGet g looks =>
    simp only [State.act]
    split
    · exact placed
    · exact ⟨placed.flow, placed.answering, placed.puts, placed.swept⟩
  | serveCachedGet key => exact placed
  | read e => exact ⟨placed.flow, placed.answering, placed.puts, placed.swept⟩

theorem step {t : State cfg} {e : Event} (placed : s.Placed) (taken : s.step e = some t) : t.Placed := by
  obtain ⟨able, rfl⟩ := step_eq_some.mp taken
  have after := placed.act able
  exact ⟨after.flow, after.answering, after.puts, after.swept⟩

/-- With nothing in flight, a write was answered for or refused. -/
theorem puts_perm (placed : s.Placed) (quiet : s.Quiet) : s.writes.hist.puts.Perm (s.answered ++ s.refused) := by
  refine List.perm_iff_count.mpr fun r => ?_
  have idle : (s.writes.pc r.thread).handled = [] := by
    cases pc : s.writes.pc r.thread with
    | handling w => exact absurd pc (quiet.handlers r.thread w).1
    | _ => rfl
  have puts := placed.puts r
  have staged := placed.flow.accounts.staged r
  have flushed := placed.flow.accounts.flushed r
  have swept := placed.swept r
  have answered := placed.answering.unanswered_eq_zero (quiet.written r.vbucket) (quiet.durable _).1 (quiet.durable _).2
  rw [idle] at puts
  rw [quiet.staged] at staged
  rw [quiet.queued] at flushed
  rw [answered, quiet.parked.1, quiet.parked.2] at swept
  simp only [List.append_nil, List.map_nil, List.count_nil, List.count_append] at puts staged flushed swept ⊢
  omega

end Placed

/-- The requests that are counted, less the GETs that were answered. -/
def taken (s : State cfg) : ℕ := s.writes.hist.puts.length + s.getQueue.length + s.reads.pending.length

theorem requests_cacheResponse (key : DocKey) : (s.cacheResponse key).requests = 0 := by
  unfold cacheResponse
  split
  · rfl
  · next p _ => cases p.doc.content.deleted <;> rfl

theorem responses_cacheResponse {key : DocKey} (found : s.writes.cache.contents key ≠ none) :
    (s.cacheResponse key).responses = 1 := by
  unfold cacheResponse
  split
  · next none => exact absurd none found
  · next p _ => cases p.doc.content.deleted <;> rfl

/-- The write path counts each write that is put, and each that is answered for. -/
theorem bumps_write (e : Engine.Event) :
    (s.bumps (.write e)).requests = e.puts.length ∧ (s.bumps (.write e)).responses = (s.writes.answers e).length := by
  cases e with
  | put r cap =>
    simp only [bumps]
    split <;> exact ⟨rfl, rfl⟩
  | settle vb =>
    have response : Counter.isRequest (if (s.writes.writer vb).ok then .cmdSetResp else .cmdSetRespErr) = false := by
      split <;> rfl
    simp only [bumps]
    split
    · exact ⟨Bumps.requests_map_one _ response, Bumps.responses_map_one _ response⟩
    · simp [Bumps.requests, Bumps.responses, response, Event.puts, Engine.State.answers]
  | durableSub shard p => exact ⟨rfl, rfl⟩
  | _ => exact ⟨rfl, rfl⟩

theorem bumps_drainDurable (loop durable : ℕ) :
    (s.bumps (.drainDurable loop durable)).requests = 0 ∧
      (s.bumps (.drainDurable loop durable)).responses = (s.parkedLocal.filter (durableOf loop durable)).length := by
  simp only [bumps]
  split
  · next none => exact ⟨rfl, by rw [none]; rfl⟩
  · exact ⟨rfl, rfl⟩

private theorem requests_cmdGet (rest : Bumps) : Bumps.requests ((.cmdGet, 1) :: rest) = 1 + rest.requests :=
  Bumps.requests_append [(.cmdGet, 1)] rest

private theorem responses_cmdGet (rest : Bumps) : Bumps.responses ((.cmdGet, 1) :: rest) = rest.responses :=
  (Bumps.responses_append [(.cmdGet, 1)] rest).trans (Nat.zero_add _)

/-- A GET is counted when it comes, and its response if it is answered at once. -/
theorem bumps_handleGet (g : Get) (looks : Bool) :
    (s.bumps (.handleGet g looks)).requests = 1 ∧
      (s.bumps (.handleGet g looks)).responses = if s.AnsweredAtOnce g looks then 1 else 0 := by
  simp only [bumps, requests_cmdGet, responses_cmdGet, AnsweredAtOnce]
  rcases Bool.eq_false_or_eq_true cfg.echo with echo | echo
  · simp [echo, Bumps.requests, Bumps.responses, Counter.isRequest]
  cases looks with
  | false => simp [echo, Bumps.requests, Bumps.responses]
  | true =>
    rcases eq_or_ne (s.writes.cache.contents (g.vbucket, g.key)) none with none | found
    · simp [echo, cacheResponse, none, Bumps.requests, Bumps.responses]
    · simp [echo, requests_cacheResponse, responses_cacheResponse found, found]

/-- The readers count each GET that they answer. -/
theorem bumps_read {e : Reads.Event} (able : s.reads.Enabled cfg.reads e) :
    (s.bumps (.read e)).requests = 0 ∧
      (s.reads.next cfg.reads e).pending.length + (s.bumps (.read e)).responses =
        s.reads.pending.length + (collected e).length := by
  have begun (phase : Reads.Phase) (tasks : List Task) : (s.reads.begin phase tasks).pending.length =
      s.reads.pending.length + (tasks.flatMap Task.batch).length := by
    rw [(Reads.State.pending_begin s.reads phase tasks).length_eq, List.length_append]
  cases e with
  | get vbid g a =>
    have response := isRequest_getResponse a.hit
    exact ⟨Bumps.requests_map_one [g] response, congrArg (_ + ·) (Bumps.responses_map_one [g] response)⟩
  | executeRead i task =>
    refine ⟨rfl, (begun .blocking [task]).trans ?_⟩
    rw [List.flatMap_singleton]
    rfl
  | executeReadMulti i tasks => exact ⟨rfl, begun .blocking tasks⟩
  | submitReadsAsync tasks => exact ⟨rfl, begun .offered tasks⟩
  | onDoc call i op a =>
    have response := isRequest_getResponse a.hit
    have waited := ((List.perm_cons_erase able.2.1).flatMap_right fun w => w.2.gets).length_eq
    rw [List.flatMap_cons, List.length_append, GetOperation.gets, List.length_map] at waited
    refine ⟨Bumps.requests_map_one _ response, ?_⟩
    rw [show s.bumps (.read (.onDoc call i op a)) = op.reqs.map fun _ => (getResponse a.hit, 1) from rfl,
      Bumps.responses_map_one _ response]
    exact (Nat.add_comm ..).trans waited.symm
  | _ => exact ⟨rfl, rfl⟩

/-- Whatever an action counts, it does. -/
theorem act_counts (able : s.Enabled a) :
    (s.bumps a).requests + s.taken + (s.act a).answered.length =
      (s.bumps a).responses + (s.act a).taken + s.answered.length := by
  cases a with
  | write e =>
    obtain ⟨requests, responses⟩ := s.bumps_write e
    simp only [requests, responses, taken, act, Engine.State.hist_puts_next, List.length_append]
    omega
  | takeParked loop => rfl
  | drainDurable loop durable =>
    obtain ⟨requests, responses⟩ := s.bumps_drainDurable loop durable
    simp only [requests, responses, taken, act, List.length_append, List.length_map]
    omega
  | handleGet g looks =>
    obtain ⟨requests, responses⟩ := s.bumps_handleGet g looks
    rw [requests, responses]
    simp only [act]
    split
    · rfl
    · simp only [taken, List.length_append, List.length_singleton]
      omega
  | serveCachedGet key =>
    simp only [bumps, requests_cmdGet, responses_cmdGet, requests_cacheResponse, responses_cacheResponse able.2, act]
  | read e =>
    obtain ⟨requests, responses⟩ := bumps_read able.1
    have split := (List.subperm_append_diff_self_of_count_le (List.subperm_ext_iff.mp able.2)).length_eq
    rw [List.length_append] at split
    simp only [requests, taken, act]
    omega

/-- The counters stand for the requests taken, less the writes that were answered for. -/
structure Counted (s : State cfg) : Prop where
  outstanding : s.stats.outstandingRequests + .ofNat s.answered.length = .ofNat s.taken
  tmpFails : s.stats.tmpFails = .ofNat s.refused.length

namespace Counted

theorem initial (maxBytes : ℕ) (store : UInt16 → Store) (seqnos : UInt16 → ℕ) (threads : ℕ) :
    (initial cfg maxBytes store seqnos threads).Counted where
  outstanding := (UInt64.add_zero _).trans DispatcherStats.outstandingRequests_initial
  tmpFails := rfl

private theorem outstandingRequests_act (a : Action) :
    (s.act a).stats.outstandingRequests = s.stats.outstandingRequests := by
  cases a with
  | handleGet g looks =>
    simp only [act]
    split <;> rfl
  | _ => rfl

private theorem tmpFails_act (tmpFails : s.stats.tmpFails = .ofNat s.refused.length) (a : Action) :
    (s.act a).stats.tmpFails = .ofNat (s.act a).refused.length := by
  cases a with
  | write e => simp only [act, tmpFails, List.length_append, UInt64.ofNat_add]
  | handleGet g looks =>
    simp only [act]
    split <;> exact tmpFails
  | _ => exact tmpFails

theorem step {t : State cfg} {e : Event} (hot : cfg.gStatsHotPath = true) (counted : s.Counted)
    (taken : s.step e = some t) : t.Counted := by
  obtain ⟨able, rfl⟩ := step_eq_some.mp taken
  have before := counted.outstanding
  have added := DispatcherStats.outstandingRequests_hotStatAdds e.slot (s.act e.action).stats (s.bumps e.action)
  have counts := congrArg UInt64.ofNat (act_counts able)
  simp only [UInt64.ofNat_add] at counts
  constructor
  · show ((s.act e.action).stats.hotStatAdds cfg.gStatsHotPath e.slot (s.bumps e.action)).outstandingRequests +
      .ofNat (s.act e.action).answered.length = .ofNat (s.act e.action).taken
    rw [outstandingRequests_act] at added
    rw [hot]
    grind
  · exact (DispatcherStats.tmpFails_hotStatAdds ..).trans (tmpFails_act counted.tmpFails e.action)

end Counted

/-- In any run with the counters on, whenever no request is in flight, `outstanding_requests` is the number of writes
that the queue limit refused, in a 64-bit word, and so is `tmp_fails`. The counters balance if and only if that number
is a multiple of 2 ^ 64. -/
theorem outstanding_eq_refused (hot : cfg.gStatsHotPath = true) {maxBytes : ℕ} {store : UInt16 → Store}
    {seqnos : UInt16 → ℕ} {threads : ℕ} (reached : Reach step (initial cfg maxBytes store seqnos threads) s)
    (quiet : s.Quiet) :
    s.stats.outstandingRequests = .ofNat s.refused.length ∧ s.stats.tmpFails = .ofNat s.refused.length ∧
      (s.stats.Balanced ↔ 2 ^ 64 ∣ s.refused.length) := by
  have placed : s.Placed := reached.invariant (.initial maxBytes store seqnos threads) fun placed => placed.step
  have counted : s.Counted := reached.invariant (.initial maxBytes store seqnos threads) fun counted => counted.step hot
  have puts := (placed.puts_perm quiet).length_eq
  have outstanding : s.stats.outstandingRequests = .ofNat s.refused.length := by
    have all := counted.outstanding
    rw [taken, quiet.gets, Reads.State.pending, quiet.reads.1, puts, List.length_append] at all
    simp only [List.flatMap_nil, List.length_nil, Nat.add_zero, UInt64.ofNat_add] at all
    grind
  refine ⟨outstanding, counted.tmpFails, ?_⟩
  rw [DispatcherStats.balanced_iff, outstanding, Nat.dvd_iff_mod_eq_zero, ← UInt64.toNat_inj]
  simp

end State

/-- A small server with the counters on. -/
def plainServer : Config where
  writes := plainConfig
  reads := directReads
  echo := false
  gStatsHotPath := true

/-- The same with no room for writes. -/
def fullServer : Config := { plainServer with writes := { plainConfig with writeQueueMemLimit := 0 } }

/-- An empty server whose cache holds 100 bytes, with one reader. -/
def emptyStart (cfg : Config) : State cfg := .initial cfg 100 (fun _ _ => none) (fun _ => 0) 1

/-- A SET that is persisted, a GET that finds it in the cache, and one of another key that magma does not have. -/
def servedTape : List Event :=
  [⟨3, .write (.put (plainSet 0 0 1) none)⟩, ⟨3, .write (.accept (plainSet 0 0 1))⟩,
    ⟨3, .handleGet ⟨0, 1, 4, 0, [107]⟩ true⟩, ⟨5, .handleGet ⟨1, 2, 5, 0, [108]⟩ true⟩, ⟨3, .write (.charge 0)⟩,
    ⟨3, .write (.push 0 0)⟩, ⟨3, .write (.flushed 0)⟩, ⟨7, .write (.sweep 0)⟩,
    ⟨8, .read (.get 0 ⟨1, 2, 5, 0, [108]⟩ ⟨.okDocNotFound, [], []⟩)⟩, ⟨7, .write (.write 0 true)⟩,
    ⟨7, .write (.mark 0 (plainSet 0 0 1) 1)⟩, ⟨7, .write (.settle 0)⟩]

theorem outstanding_eq_refused_served : ∃ s : State plainServer, Reach State.step (emptyStart plainServer) s ∧
    s.Quiet ∧ s.answered = [plainSet 0 0 1] ∧ s.refused = [] ∧ s.stats.Balanced := by
  obtain ⟨s, run, answered, refused, parked, gets, reads⟩ : ∃ s, exec State.step (emptyStart plainServer) servedTape =
      some s ∧ s.answered = [plainSet 0 0 1] ∧ s.refused = [] ∧ (s.parkedHead = [] ∧ s.parkedLocal = []) ∧
      s.getQueue = [] ∧ s.reads.waiting = [] ∧ s.reads.held = [] := exists_exec (by decide +kernel)
  have writes := Engine.State.eq_foldl_of_exec (State.writes_of_exec run)
  have quiet : s.Quiet := by
    refine ⟨?_, ?_, ?_, ?_, ?_, parked, gets, reads⟩ <;> rw [writes] <;> intros <;>
      simp [servedTape, Action.writes, Engine.State.next, emptyStart, State.initial, Engine.State.initial, plainSet,
        Writer.unanswered, Writer.idle]
  obtain ⟨_, _, balanced⟩ := State.outstanding_eq_refused rfl ⟨servedTape, run⟩ quiet
  exact ⟨s, ⟨servedTape, run⟩, quiet, answered, refused, balanced.mpr (by rw [refused]; exact dvd_zero _)⟩

/-- A SET that is refused. -/
def refusedTape : List Event :=
  [⟨3, .write (.put (plainSet 0 0 1) none)⟩, ⟨3, .write (.refuse (plainSet 0 0 1))⟩,
    ⟨3, .write (.erase (plainSet 0 0 1))⟩]

/-- It was answered, with an error, and stays outstanding. -/
theorem refused_write_stays_outstanding : ∃ s : State fullServer, Reach State.step (emptyStart fullServer) s ∧
    s.Quiet ∧ s.refused = [plainSet 0 0 1] ∧ s.stats.outstandingRequests = 1 ∧ ¬ s.stats.Balanced := by
  obtain ⟨s, run, refused, outstanding, parked, gets, reads⟩ : ∃ s, exec State.step (emptyStart fullServer) refusedTape =
      some s ∧ s.refused = [plainSet 0 0 1] ∧ s.stats.outstandingRequests = 1 ∧
      (s.parkedHead = [] ∧ s.parkedLocal = []) ∧ s.getQueue = [] ∧ s.reads.waiting = [] ∧ s.reads.held = [] :=
    exists_exec (by decide +kernel)
  have writes := Engine.State.eq_foldl_of_exec (State.writes_of_exec run)
  have quiet : s.Quiet := by
    refine ⟨?_, ?_, ?_, ?_, ?_, parked, gets, reads⟩ <;> rw [writes] <;> intros <;>
      simp [refusedTape, Action.writes, Engine.State.next, emptyStart, State.initial, Engine.State.initial, plainSet,
        Writer.unanswered, Writer.idle]
  refine ⟨s, ⟨refusedTape, run⟩, quiet, refused, outstanding, ?_⟩
  rw [DispatcherStats.balanced_iff, outstanding]
  decide

end FluxKV.Engine.Counters
