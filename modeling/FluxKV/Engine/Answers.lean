import FluxKV.Engine.Completion

/-! # Where a swept write waits for its answer

A writer that is done with its batch answers for it, or leaves that to others: each write that has a loop is parked on
it, and the rest, or the whole batch where there is no notifier, goes to the completion thread of the shard. The
notifier's ledger returns bytes and answers for nothing.
-/

namespace FluxKV.Engine

open Counting

/-- The writes a writer has still to answer for or to pass on. -/
def Writer.unanswered (w : Writer) : List Request :=
  match w.phase with
  | .idle | .parked => []
  | .swept | .marking | .stamped => w.batch

theorem Writer.AtHome.unanswered {vb : UInt16} {w : Writer} (home : w.AtHome vb) : OfVbucket vb w.unanswered := by
  unfold Writer.unanswered
  split
  · exact .nil vb
  · exact .nil vb
  all_goals exact home.1

/-- The writes a list of entries has to answer for. -/
def reqsOf (entries : List Waiting) : List Request := entries.flatMap Waiting.reqs

theorem reqsOf_eq_nil {entries : List Waiting} (silent : ∀ w ∈ entries, w.reqs = []) : reqsOf entries = [] :=
  List.flatMap_eq_nil_iff.mpr silent

namespace State

variable {cfg : Config} {s : State cfg} {e : Event}

/-- The writes an event parks on their loops. -/
def parks (s : State cfg) : Event → List Request
  | .park vb => (s.writer vb).batch.filter fun r => r.ioOwner ≠ none
  | _ => []

/-- The writes an event answers for. -/
def answers (s : State cfg) : Event → List Request
  | .settle vb => (s.writer vb).batch
  | .durableSub _ p => p.reqs
  | _ => []

/-- How often a write waits for its answer with its writer or with a completion thread. -/
def unanswered (s : State cfg) (r : Request) : ℕ :=
  (s.writer r.vbucket).unanswered.count r + (reqsOf (s.waiting (shardOf cfg r.vbucket))).count r

/-- The ledger answers for nothing, and a completion thread for writes of its shard. -/
structure Answering (s : State cfg) : Prop where
  silent : ∀ w ∈ s.ledger ++ s.notified.getD [], w.reqs = []
  homes : ∀ shard, ∀ w ∈ s.durableQueue shard ++ s.ready shard, ∀ r ∈ w.reqs, shardOf cfg r.vbucket = shard

namespace Answering

theorem initial (maxBytes : ℕ) (store : UInt16 → Store) (seqnos : UInt16 → ℕ) :
    (State.initial cfg maxBytes store seqnos).Answering where
  silent _ member := (List.not_mem_nil member).elim
  homes _ _ member := (List.not_mem_nil member).elim

private theorem silent_next (answering : s.Answering) (able : s.enabled e) :
    ∀ w ∈ (s.next e).ledger ++ (s.next e).notified.getD [], w.reqs = [] := by
  have old := answering.silent
  cases e with
  | addBytes vb =>
    obtain ⟨ledger, notified⟩ := List.forall_mem_append.mp old
    exact List.forall_mem_append.mpr
      ⟨List.forall_mem_append.mpr ⟨ledger, List.forall_mem_singleton.mpr rfl⟩, notified⟩
  | ledgerTake d =>
    obtain ⟨ledger, _⟩ := List.forall_mem_append.mp old
    exact List.forall_mem_append.mpr
      ⟨fun w kept => ledger w (List.mem_of_mem_filter kept), fun w taken => ledger w (List.mem_of_mem_filter taken)⟩
  | ledgerSub entries =>
    obtain ⟨ledger, _⟩ := List.forall_mem_append.mp old
    exact List.forall_mem_append.mpr ⟨ledger, fun _ none => (List.not_mem_nil none).elim⟩
  | _ => exact old

theorem next (homes : s.Homes) (answering : s.Answering) (able : s.enabled e) : (s.next e).Answering where
  silent := answering.silent_next able
  homes shard w member := by
    rcases mem_queue_next able member with old | ⟨new, _⟩
    · exact answering.homes shard w old
    · exact homes_enters homes new

end Answering

section Moves

variable (homes : s.Homes) (answering : s.Answering) (able : s.enabled e) (r : Request)

include able in
/-- What entries have to answer for moves with them. -/
theorem reqs_next (shard : ℕ) :
    (reqsOf ((s.next e).waiting shard)).count r + (reqsOf (leaves shard e)).count r =
      (reqsOf (s.waiting shard)).count r + (reqsOf (s.enters shard e)).count r := by
  have perm := ((waiting_next able shard).flatMap_right Waiting.reqs).count_eq r
  simpa only [reqsOf, List.flatMap_append, List.count_append] using perm

include homes

theorem unanswered_update (vb : UInt16) (w : Writer) (home : w.AtHome vb) :
    (Function.update s.writer vb w r.vbucket).unanswered.count r + (s.writer vb).unanswered.count r =
      (s.writer r.vbucket).unanswered.count r + w.unanswered.count r :=
  count_update Writer.unanswered Request.vbucket s.writer vb w r (homes.writer vb).unanswered home.unanswered

/-- The writer keeps its batch. -/
theorem unanswered_keep {vb : UInt16} {w : Writer} (same : w.unanswered.Perm (s.writer vb).unanswered) :
    (Function.update s.writer vb w r.vbucket).unanswered.count r = (s.writer r.vbucket).unanswered.count r := by
  have home := (homes.writer vb).unanswered
  have moved := count_update Writer.unanswered Request.vbucket s.writer vb w r home (home.of_perm same)
  rw [same.count_eq r] at moved
  omega

/-- The writer is done with its batch. -/
theorem unanswered_done (vb : UInt16) {w : Writer} (home : w.AtHome vb) (done : w.unanswered = []) :
    (Function.update s.writer vb w r.vbucket).unanswered.count r + (s.writer vb).unanswered.count r =
      (s.writer r.vbucket).unanswered.count r := by
  have moved := unanswered_update homes r vb w home
  rwa [done, List.count_nil, Nat.add_zero] at moved

/-- A batch that goes to the completion thread goes to that of its own shard. -/
theorem reqs_awaitDurable (vb : UInt16) :
    (reqsOf (s.enters (shardOf cfg r.vbucket) (.awaitDurable vb))).count r = (s.writer vb).batch.count r := by
  simp only [enters]
  split
  · simp only [reqsOf, List.flatMap_singleton]
  · next other =>
    refine (List.count_eq_zero.mpr fun member => other ?_).symm
    rw [(homes.writer vb).1 r member]

/-- A write of the batch is parked or goes to the completion thread. -/
theorem reqs_park (vb : UInt16) :
    (reqsOf (s.enters (shardOf cfg r.vbucket) (.park vb))).count r + (s.parks (.park vb)).count r =
      (s.writer vb).batch.count r := by
  have split := (List.filter_append_perm (fun w : Request => decide (w.ioOwner = none)) (s.writer vb).batch).count_eq r
  simp only [List.count_append, ← decide_not] at split
  refine (congrArg (· + _) ?_).trans split
  simp only [enters]
  split_ifs with here
  · simp only [reqsOf, List.flatMap_singleton]
  · refine (List.count_eq_zero.mpr fun orphan => here ⟨?_, List.ne_nil_of_mem orphan⟩).symm
    rw [(homes.writer vb).1 r (List.mem_of_mem_filter orphan)]

omit homes in
include answering in
/-- A completion thread answers for writes of its own shard. -/
theorem reqs_durableSub {shard : ℕ} {p : Waiting} (head : (s.ready shard).head? = some p) :
    (reqsOf (leaves (shardOf cfg r.vbucket) (.durableSub shard p))).count r = p.reqs.count r := by
  simp only [leaves]
  split
  · simp only [reqsOf, List.flatMap_singleton]
  · next other =>
    refine (List.count_eq_zero.mpr fun member => other ?_).symm
    exact (answering.homes shard p (List.mem_append_right _ (List.mem_of_mem_head? head)) r member).symm

include answering able in
/-- A swept write waits for its answer until it is parked or answered for. -/
theorem unanswered_next :
    ((s.next e).hist.swept r.vbucket).flatten.count r + s.unanswered r =
      (s.hist.swept r.vbucket).flatten.count r + (s.next e).unanswered r + (s.parks e).count r +
        (s.answers e).count r := by
  have reqs := reqs_next able r (shardOf cfg r.vbucket)
  have none : (reqsOf []).count r = 0 := rfl
  simp only [unanswered]
  cases e with
  | sweep vb =>
    obtain ⟨phase, _⟩ := of_decide_eq_true able
    have moved := unanswered_update homes r vb _ ((homes.next (.sweep vb)).writer vb)
    rw [swept_sweep homes]
    simp only [next, Function.update_self, Writer.unanswered, phase, List.count_nil, List.count_reverse, leaves, enters,
      parks, answers] at moved reqs ⊢
    omega
  | write vb ok =>
    have phase : (s.writer vb).phase = .swept := of_decide_eq_true able
    have kept : ((s.next (.write vb ok)).writer r.vbucket).unanswered.count r =
        (s.writer r.vbucket).unanswered.count r := by
      apply unanswered_keep homes r
      simp only [Writer.unanswered, phase]
      exact planBatch_perm cfg.batchSort cfg.sortDupThreshold (s.writer vb).batch
    rw [kept]
    rfl
  | mark vb w seqno =>
    have kept : ((s.next (.mark vb w seqno)).writer r.vbucket).unanswered.count r =
        (s.writer r.vbucket).unanswered.count r := unanswered_keep homes r (.refl _)
    rw [kept]
    rfl
  | trim vb key =>
    have kept : ((s.next (.trim vb key)).writer r.vbucket).unanswered.count r =
        (s.writer r.vbucket).unanswered.count r := unanswered_keep homes r (.refl _)
    rw [kept]
    rfl
  | stamp vb lsn =>
    obtain ⟨⟨phase, _⟩, _⟩ := of_decide_eq_true able
    have kept : ((s.next (.stamp vb lsn)).writer r.vbucket).unanswered.count r =
        (s.writer r.vbucket).unanswered.count r := by
      apply unanswered_keep homes r
      simp only [Writer.unanswered, phase]
      exact .refl _
    rw [kept]
    rfl
  | settle vb =>
    obtain ⟨⟨phase, _⟩, _⟩ := of_decide_eq_true able
    have done := unanswered_done homes r vb (w := .idle) ⟨.nil vb, .nil vb⟩ rfl
    simp only [next, Writer.unanswered, phase, leaves, enters, parks, answers, List.count_nil] at done reqs ⊢
    omega
  | park vb =>
    obtain ⟨phase, _⟩ := of_decide_eq_true able
    have done := unanswered_done homes r vb (w := { s.writer vb with phase := .parked }) (homes.writer vb) rfl
    have split := reqs_park homes r vb
    simp only [next, Writer.unanswered, phase, leaves, answers, List.count_nil] at done reqs ⊢
    omega
  | awaitDurable vb =>
    obtain ⟨phase, _⟩ := of_decide_eq_true able
    have done := unanswered_done homes r vb (w := .idle) ⟨.nil vb, .nil vb⟩ rfl
    rw [reqs_awaitDurable homes] at reqs
    simp only [next, Writer.unanswered, phase, leaves, parks, answers, List.count_nil] at done reqs ⊢
    omega
  | addBytes vb =>
    have phase : (s.writer vb).phase = .parked := of_decide_eq_true able
    have done := unanswered_done homes r vb (w := .idle) ⟨.nil vb, .nil vb⟩ rfl
    have silent : (reqsOf (s.enters (shardOf cfg r.vbucket) (.addBytes vb))).count r = 0 := rfl
    simp only [next, Writer.unanswered, phase, leaves, parks, answers, List.count_nil] at done reqs ⊢
    omega
  | ledgerSub entries =>
    have notified : s.notified = some entries := of_decide_eq_true able
    have silent : reqsOf entries = [] := reqsOf_eq_nil fun w member =>
      answering.silent w (List.mem_append_right _ (by rwa [notified]))
    simp only [next, leaves, enters, parks, answers, silent, List.count_nil] at reqs ⊢
    omega
  | durableSub shard p =>
    rw [reqs_durableSub answering r (of_decide_eq_true able)] at reqs
    simp only [next, enters, parks, answers, List.count_nil] at reqs ⊢
    omega
  | ledgerTake d | durableTake shard d =>
    simp only [next, leaves, enters, parks, answers, List.count_nil] at reqs ⊢
    omega
  | _ => rfl

end Moves

/-- Nothing waits for an answer where the writers are idle and the completion threads have no batch. -/
theorem Answering.unanswered_eq_zero (answering : s.Answering) {r : Request}
    (written : (s.writer r.vbucket).unanswered = []) (queue : s.durableQueue (shardOf cfg r.vbucket) = [])
    (ready : s.ready (shardOf cfg r.vbucket) = []) : s.unanswered r = 0 := by
  rw [State.unanswered, written, waiting, queue, ready, List.append_nil, List.append_nil,
    reqsOf_eq_nil answering.silent]
  rfl

end State

end FluxKV.Engine
