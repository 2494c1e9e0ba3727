import FluxKV.Engine.Flow
import Mathlib.Data.List.TakeWhile

/-! # Where a swept write waits for its completion

A writer returns the queue bytes of its batch itself, or leaves them to a thread that waits for the log: as
an entry of the notifier's ledger, or as a batch of the shard's completion thread. A write whose bytes were
returned was handed to `WriteDocs` and, if it waited for the log, the log covers it.
-/

namespace FluxKV.Engine

open Protocol Cache Counting Machine

/-- The writes whose queue bytes a writer has still to return or to pass on. -/
def Writer.owed (w : Writer) : List Request :=
  match w.phase with
  | .idle => []
  | .swept | .marking | .stamped | .parked => w.batch

theorem Writer.AtHome.owed {vb : UInt16} {w : Writer} (home : w.AtHome vb) : OfVbucket vb w.owed := by
  unfold Writer.owed
  split
  · exact .nil vb
  all_goals exact home.1

/-- What a list of entries has still to return. -/
def paidOf (entries : List Waiting) : List Request := entries.flatMap Waiting.paid

theorem paidOf_append (first second : List Waiting) : paidOf (first ++ second) = paidOf first ++ paidOf second :=
  List.flatMap_append

theorem paidOf_perm {first second : List Waiting} (perm : first.Perm second) : (paidOf first).Perm (paidOf second) :=
  perm.flatMap_right _

namespace State

variable {cfg : Config} {s : State cfg} {e : Event}

/-- What may hold writes of a shard: the ledger, what the notifier took off it, the shard's queue, and what
its completion thread took off that. -/
def waiting (s : State cfg) (shard : ℕ) : List Waiting :=
  s.ledger ++ s.notified.getD [] ++ (s.durableQueue shard ++ s.ready shard)

/-- The entries an event adds to these. -/
def enters (s : State cfg) (shard : ℕ) : Event → List Waiting
  | .park vb =>
    let orphans := (s.writer vb).batch.filter fun r => r.ioOwner = none
    if shardOf cfg vb = shard ∧ orphans ≠ [] then [⟨(s.writer vb).lsn, 0, orphans, []⟩] else []
  | .addBytes vb => [⟨(s.writer vb).lsn, bytesOf cfg (s.writer vb).batch, [], (s.writer vb).batch⟩]
  | .awaitDurable vb =>
    if shardOf cfg vb = shard then
      [⟨(s.writer vb).lsn, bytesOf cfg (s.writer vb).batch, (s.writer vb).batch, (s.writer vb).batch⟩]
    else []
  | _ => []

/-- The entries it settles. -/
def leaves (shard : ℕ) : Event → List Waiting
  | .ledgerSub entries => entries
  | .durableSub shard' p => if shard' = shard then [p] else []
  | _ => []

private theorem waiting_ledgerTake {d : ℕ} (able : s.enabled (.ledgerTake d)) (shard : ℕ) :
    ((s.next (.ledgerTake d)).waiting shard).Perm (s.waiting shard) := by
  obtain ⟨idle, _⟩ := of_decide_eq_true able
  have split : (s.ledger.filter (fun w => d < w.lsn) ++ s.ledger.filter fun w => w.lsn ≤ d).Perm s.ledger := by
    have parts := List.filter_append_perm (fun w : Waiting => decide (d < w.lsn)) s.ledger
    simpa only [← decide_not, Nat.not_lt] using parts
  simp only [waiting, next, idle, Option.getD_some, Option.getD_none, List.append_nil]
  exact split.append_right _

private theorem waiting_durableTake {shard' d : ℕ} (able : s.enabled (.durableTake shard' d)) (shard : ℕ) :
    ((s.next (.durableTake shard' d)).durableQueue shard ++ (s.next (.durableTake shard' d)).ready shard).Perm
      (s.durableQueue shard ++ s.ready shard) := by
  obtain ⟨idle, _⟩ := of_decide_eq_true able
  by_cases same : shard = shard'
  · subst same
    simp only [next, Function.update_self, idle, List.append_nil]
    exact List.perm_append_comm.trans (List.Perm.of_eq List.takeWhile_append_dropWhile)
  · simp only [next, Function.update_of_ne same]
    exact .refl _

/-- Entries only enter, leave or move. -/
theorem waiting_next (able : s.enabled e) (shard : ℕ) :
    ((s.next e).waiting shard ++ leaves shard e).Perm (s.waiting shard ++ s.enters shard e) := by
  have enter (queue' queue ready entry : List Waiting) (added : queue' = queue ++ entry) :
      (s.ledger ++ s.notified.getD [] ++ (queue' ++ ready) ++ []).Perm
        (s.ledger ++ s.notified.getD [] ++ (queue ++ ready) ++ entry) := by
    apply List.perm_iff_count.mpr
    intro w
    simp only [added, List.count_append, List.count_nil]
    omega
  cases e with
  | park vb =>
    refine enter _ _ _ _ ?_
    by_cases same : shard = shardOf cfg vb
    · subst same
      simp only [next, Function.update_self, enters, true_and]
      split <;> simp_all
    · simp [next, enters, same, Ne.symm same]
  | addBytes vb =>
    apply List.perm_iff_count.mpr
    intro w
    simp only [waiting, next, leaves, enters, List.count_append, List.count_nil]
    omega
  | awaitDurable vb =>
    refine enter _ _ _ _ ?_
    by_cases same : shard = shardOf cfg vb
    · subst same
      simp [next, enters]
    · simp [next, enters, same, Ne.symm same]
  | ledgerTake d =>
    simp only [leaves, enters, List.append_nil]
    exact waiting_ledgerTake able shard
  | ledgerSub entries =>
    have notified : s.notified = some entries := of_decide_eq_true able
    apply List.perm_iff_count.mpr
    intro w
    simp only [waiting, next, leaves, enters, notified, Option.getD_some, Option.getD_none, List.count_append,
      List.count_nil]
    omega
  | durableTake shard' d =>
    simp only [leaves, enters, List.append_nil]
    exact List.Perm.append_left _ (waiting_durableTake able shard)
  | durableSub shard' p =>
    have head : (s.ready shard').head? = some p := of_decide_eq_true able
    by_cases same : shard = shard'
    · subst same
      have split : s.ready shard = p :: (s.ready shard).tail := (List.cons_head?_tail head).symm
      apply List.perm_iff_count.mpr
      intro w
      have moved := congrArg (List.count w) split
      simp only [waiting, next, leaves, enters, Function.update_self, if_true, List.count_append, List.count_nil,
        List.count_cons] at moved ⊢
      omega
    · simp only [waiting, next, leaves, enters, Function.update_of_ne same, if_neg (Ne.symm same)]
      exact .refl _
  | _ => exact .refl _

theorem mem_waiting_next (able : s.enabled e) {shard : ℕ} {w : Waiting}
    (member : w ∈ (s.next e).waiting shard) : w ∈ s.waiting shard ∨ w ∈ s.enters shard e :=
  List.mem_append.mp ((waiting_next able shard).subset (List.mem_append_left _ member))

/-- What entries have still to return moves with them. -/
theorem paid_next (able : s.enabled e) (shard : ℕ) (r : Request) :
    (paidOf ((s.next e).waiting shard)).count r + (paidOf (leaves shard e)).count r =
      (paidOf (s.waiting shard)).count r + (paidOf (s.enters shard e)).count r := by
  have perm := (paidOf_perm (waiting_next able shard)).count_eq r
  simpa only [paidOf_append, List.count_append] using perm

/-- The writes whose bytes an event returns. -/
def returned (s : State cfg) : Event → List Request
  | .settle vb => (s.writer vb).batch
  | .ledgerSub entries => paidOf entries
  | .durableSub _ p => p.paid
  | _ => []

theorem hist_released_next (e : Event) : (s.next e).hist.released = s.hist.released ++ s.returned e := by
  cases e <;> first | rfl | exact (List.append_nil _).symm

/-- Every swept write is with its writer, waits with an entry, or has had its bytes returned. -/
structure Accounted (s : State cfg) : Prop where
  homes : ∀ shard, ∀ w ∈ s.durableQueue shard ++ s.ready shard, ∀ r ∈ w.paid, shardOf cfg r.vbucket = shard
  bytes : ∀ shard, ∀ w ∈ s.waiting shard, w.bytes = bytesOf cfg w.paid
  places : ∀ r, (s.hist.swept r.vbucket).flatten.count r = (s.writer r.vbucket).owed.count r +
    (paidOf (s.waiting (shardOf cfg r.vbucket))).count r + s.hist.released.count r

private theorem bytes_enters {shard : ℕ} {w : Waiting} (member : w ∈ s.enters shard e) :
    w.bytes = bytesOf cfg w.paid := by
  cases e with
  | park vb =>
    simp only [enters] at member
    split at member
    · rw [List.mem_singleton.mp member]
      rfl
    · exact (List.not_mem_nil member).elim
  | addBytes vb => rw [List.mem_singleton.mp member]
  | awaitDurable vb =>
    simp only [enters] at member
    split at member
    · rw [List.mem_singleton.mp member]
    · exact (List.not_mem_nil member).elim
  | _ => exact (List.not_mem_nil member).elim

/-- What joins the queue of a shard answers every write whose bytes it returns. -/
theorem mem_queue_next (able : s.enabled e) {shard : ℕ} {w : Waiting}
    (member : w ∈ (s.next e).durableQueue shard ++ (s.next e).ready shard) :
    w ∈ s.durableQueue shard ++ s.ready shard ∨ w ∈ s.enters shard e ∧ w.paid ⊆ w.reqs := by
  cases e with
  | park vb =>
    rcases eq_or_ne shard (shardOf cfg vb) with rfl | other
    · simp only [next, Function.update_self] at member
      split at member
      · exact .inl member
      · next some =>
        simp only [List.append_assoc, List.mem_append, List.mem_singleton] at member
        rcases member with queued | rfl | ready
        · exact .inl (List.mem_append_left _ queued)
        · exact .inr ⟨by simp [enters, some], List.nil_subset _⟩
        · exact .inl (List.mem_append_right _ ready)
    · simp only [next, Function.update_of_ne other] at member
      exact .inl member
  | awaitDurable vb =>
    rcases eq_or_ne shard (shardOf cfg vb) with rfl | other
    · simp only [next, Function.update_self, List.append_assoc, List.mem_append, List.mem_singleton] at member
      rcases member with queued | rfl | ready
      · exact .inl (List.mem_append_left _ queued)
      · exact .inr ⟨by simp [enters], List.Subset.refl _⟩
      · exact .inl (List.mem_append_right _ ready)
    · simp only [next, Function.update_of_ne other] at member
      exact .inl member
  | durableTake shard' d => exact .inl ((waiting_durableTake able shard).subset member)
  | durableSub shard' p =>
    left
    simp only [next, Function.update_apply] at member
    split at member
    · next same =>
      subst same
      exact (List.mem_append.mp member).elim (List.mem_append_left _) fun ready =>
        List.mem_append_right _ (List.mem_of_mem_tail ready)
    · exact member
  | _ => exact .inl member

/-- A batch is left to the completion thread of its own shard. -/
theorem homes_enters (homes : s.Homes) {shard : ℕ} {w : Waiting} (member : w ∈ s.enters shard e) :
    ∀ r ∈ w.reqs, shardOf cfg r.vbucket = shard := by
  intro r inside
  cases e with
  | park vb =>
    obtain ⟨here, single⟩ := List.mem_ite_nil_right.mp member
    rw [List.mem_singleton.mp single] at inside
    rw [(homes.writer vb).1 r (List.mem_of_mem_filter inside), here.1]
  | addBytes vb =>
    rw [List.mem_singleton.mp member] at inside
    exact (List.not_mem_nil inside).elim
  | awaitDurable vb =>
    obtain ⟨here, single⟩ := List.mem_ite_nil_right.mp member
    rw [List.mem_singleton.mp single] at inside
    rw [(homes.writer vb).1 r inside, here]
  | _ => exact (List.not_mem_nil member).elim

private theorem homes_queue_next (homes : s.Homes) (accounted : s.Accounted) (able : s.enabled e) (shard : ℕ) :
    ∀ w ∈ (s.next e).durableQueue shard ++ (s.next e).ready shard, ∀ r ∈ w.paid, shardOf cfg r.vbucket = shard := by
  intro w member r paid
  rcases mem_queue_next able member with old | ⟨new, answered⟩
  · exact accounted.homes shard w old r paid
  · exact homes_enters homes new r (answered paid)

section Owed

variable (homes : s.Homes) (r : Request)
include homes

theorem owed_update (vb : UInt16) (w : Writer) (home : w.AtHome vb) :
    (Function.update s.writer vb w r.vbucket).owed.count r + (s.writer vb).owed.count r =
      (s.writer r.vbucket).owed.count r + w.owed.count r :=
  count_update Writer.owed Request.vbucket s.writer vb w r (homes.writer vb).owed home.owed

theorem owed_sweep {vb : UInt16} (able : s.enabled (.sweep vb)) :
    ((s.next (.sweep vb)).writer r.vbucket).owed.count r =
      (s.writer r.vbucket).owed.count r + (s.list vb).count r := by
  obtain ⟨phase, _⟩ := of_decide_eq_true able
  have moved := owed_update homes r vb ((s.next (.sweep vb)).writer vb) ((homes.next _).writer vb)
  simp only [next, Function.update_self, Writer.owed, phase, List.count_nil, List.count_reverse] at moved ⊢
  omega

theorem owed_write {vb : UInt16} {ok : Bool} (able : s.enabled (.write vb ok)) :
    ((s.next (.write vb ok)).writer r.vbucket).owed.count r = (s.writer r.vbucket).owed.count r := by
  have phase : (s.writer vb).phase = .swept := of_decide_eq_true able
  have whole := (planBatch_perm cfg.batchSort cfg.sortDupThreshold (s.writer vb).batch).count_eq r
  have moved := owed_update homes r vb ((s.next (.write vb ok)).writer vb) ((homes.next _).writer vb)
  simp only [next, Function.update_self, Writer.owed, phase] at moved ⊢
  omega

/-- The writer keeps its batch until it is done with it. -/
theorem owed_keep {vb : UInt16} {w : Writer} (same : w.owed = (s.writer vb).owed) :
    (Function.update s.writer vb w r.vbucket).owed.count r = (s.writer r.vbucket).owed.count r := by
  have home := (homes.writer vb).owed
  have moved := count_update Writer.owed Request.vbucket s.writer vb w r home (same ▸ home)
  rw [same] at moved
  omega

theorem owed_done (vb : UInt16) (busy : (s.writer vb).owed = (s.writer vb).batch) :
    (Function.update s.writer vb Writer.idle r.vbucket).owed.count r + (s.writer vb).batch.count r =
      (s.writer r.vbucket).owed.count r := by
  have moved := owed_update homes r vb Writer.idle ⟨.nil vb, .nil vb⟩
  rw [busy] at moved
  simpa [Writer.owed, Writer.idle] using moved

end Owed

private theorem entered_park (vb : UInt16) (shard : ℕ) (r : Request) :
    (paidOf (s.enters shard (.park vb))).count r = 0 := by
  simp only [enters]
  split <;> rfl

/-- The batch enters the queue of its own shard with all its bytes. -/
private theorem entered_awaitDurable (homes : s.Homes) (vb : UInt16) (r : Request) :
    (paidOf (s.enters (shardOf cfg r.vbucket) (.awaitDurable vb))).count r = (s.writer vb).batch.count r := by
  by_cases here : r.vbucket = vb
  · simp [enters, here, paidOf]
  · rw [(homes.writer vb).1.count_eq_zero here]
    simp only [enters]
    split
    · simp only [paidOf, List.flatMap_singleton]
      exact (homes.writer vb).1.count_eq_zero here
    · rfl

/-- What a completion thread releases was waiting in the shard of its requests. -/
private theorem left_durableSub (accounted : s.Accounted) {shard : ℕ} {p : Waiting}
    (head : (s.ready shard).head? = some p) (r : Request) :
    (paidOf (leaves (shardOf cfg r.vbucket) (.durableSub shard p))).count r = p.paid.count r := by
  simp only [leaves]
  split
  · simp only [paidOf, List.flatMap_singleton]
  · next other =>
    refine (List.count_eq_zero.mpr fun paid => other ?_).symm
    exact (accounted.homes shard p (List.mem_append_right _ (List.mem_of_mem_head? head)) r paid).symm

private theorem places_next (homes : s.Homes) (accounted : s.Accounted) (able : s.enabled e) (r : Request) :
    ((s.next e).hist.swept r.vbucket).flatten.count r = ((s.next e).writer r.vbucket).owed.count r +
      (paidOf ((s.next e).waiting (shardOf cfg r.vbucket))).count r + (s.next e).hist.released.count r := by
  have before := accounted.places r
  have paid := paid_next able (shardOf cfg r.vbucket) r
  rw [hist_released_next, List.count_append]
  cases e with
  | sweep vb =>
    rw [owed_sweep homes r able, swept_sweep homes]
    simp only [leaves, enters, returned, List.count_nil] at paid ⊢
    omega
  | write vb ok =>
    rw [owed_write homes r able]
    exact before
  | mark vb w seqno =>
    have kept : ((s.next (.mark vb w seqno)).writer r.vbucket).owed.count r = (s.writer r.vbucket).owed.count r :=
      owed_keep homes r rfl
    rw [kept]
    exact before
  | trim vb key =>
    have kept : ((s.next (.trim vb key)).writer r.vbucket).owed.count r = (s.writer r.vbucket).owed.count r :=
      owed_keep homes r rfl
    rw [kept]
    exact before
  | stamp vb lsn =>
    obtain ⟨⟨phase, _⟩, _⟩ := of_decide_eq_true able
    have kept : ((s.next (.stamp vb lsn)).writer r.vbucket).owed.count r = (s.writer r.vbucket).owed.count r :=
      owed_keep homes r (by simp only [Writer.owed, phase])
    rw [kept]
    exact before
  | park vb =>
    obtain ⟨phase, _⟩ := of_decide_eq_true able
    have kept : ((s.next (.park vb)).writer r.vbucket).owed.count r = (s.writer r.vbucket).owed.count r :=
      owed_keep homes r (by simp only [Writer.owed, phase])
    have unpaid := entered_park (s := s) vb (shardOf cfg r.vbucket) r
    have same : (s.next (.park vb)).hist.swept = s.hist.swept := rfl
    rw [kept, same]
    simp only [leaves, returned, paidOf, List.flatMap_nil, List.count_nil] at paid unpaid before ⊢
    omega
  | settle vb =>
    obtain ⟨⟨phase, _⟩, _⟩ := of_decide_eq_true able
    have done := owed_done homes r vb (by simp only [Writer.owed, phase])
    simp only [next, leaves, enters, returned] at done paid ⊢
    omega
  | addBytes vb =>
    have phase : (s.writer vb).phase = .parked := of_decide_eq_true able
    have done := owed_done homes r vb (by simp only [Writer.owed, phase])
    simp only [next, leaves, enters, returned, paidOf, List.flatMap_nil, List.flatMap_singleton,
      List.count_nil] at done paid before ⊢
    omega
  | awaitDurable vb =>
    obtain ⟨phase, _⟩ := of_decide_eq_true able
    have done := owed_done homes r vb (by simp only [Writer.owed, phase])
    rw [entered_awaitDurable homes] at paid
    simp only [next, leaves, returned, paidOf, List.flatMap_nil, List.count_nil] at done paid before ⊢
    omega
  | ledgerSub entries =>
    simp only [next, leaves, enters, returned] at paid ⊢
    have none : (paidOf ([] : List Waiting)).count r = 0 := rfl
    omega
  | durableSub shard p =>
    have head : (s.ready shard).head? = some p := of_decide_eq_true able
    rw [left_durableSub accounted head] at paid
    simp only [next, enters, returned] at paid ⊢
    have none : (paidOf ([] : List Waiting)).count r = 0 := rfl
    omega
  | ledgerTake d | durableTake shard d =>
    simp only [next, leaves, enters, returned, List.count_nil] at paid ⊢
    omega
  | _ => exact before

theorem Accounted.next (homes : s.Homes) (accounted : s.Accounted) (able : s.enabled e) :
    (s.next e).Accounted where
  homes := homes_queue_next homes accounted able
  bytes shard w member := (mem_waiting_next able member).elim (accounted.bytes shard w) bytes_enters
  places := places_next homes accounted able

theorem Accounted.initial (maxBytes : ℕ) (store : UInt16 → Store) (seqnos : UInt16 → ℕ) :
    (State.initial cfg maxBytes store seqnos).Accounted where
  homes _ _ member := (List.not_mem_nil member).elim
  bytes _ _ member := (List.not_mem_nil member).elim
  places _ := rfl

/-- A write whose bytes were returned was given to `WriteDocs`. -/
theorem Accounted.handed_of_released (accounts : s.Accounts) (accounted : s.Accounted) {r : Request}
    (released : r ∈ s.hist.released) : r ∈ (s.hist.handed r.vbucket).flatten := by
  have := List.count_pos_iff.mpr released
  have places := accounted.places r
  have swept := congrArg (fun batches => batches.flatten.count r) (accounts.swept r.vbucket)
  simp only [List.flatten_append, List.count_append] at swept
  have unwritten : (s.writer r.vbucket).unwritten.flatten.count r ≤ (s.writer r.vbucket).owed.count r := by
    cases phase : (s.writer r.vbucket).phase <;> simp [Writer.unwritten, Writer.owed, phase]
  exact List.count_pos_iff.mp (by omega)

/-- A log position up to the durable watermark was recorded for the write. -/
def Durable (s : State cfg) (r : Request) : Prop := ∃ lsn, (r, lsn) ∈ s.hist.stamps ∧ lsn ≤ s.watermark

/-- A batch that waits for the log is stamped from the moment its writer has read the tail; entries are
taken up only once the log covers them. -/
structure Covered (s : State cfg) : Prop where
  stamped : ∀ vb, (s.writer vb).phase = .stamped ∨ (s.writer vb).phase = .parked →
    ∀ r ∈ (s.writer vb).batch, (r, (s.writer vb).lsn) ∈ s.hist.stamps
  failed : ∀ vb, (s.writer vb).phase = .marking → (s.writer vb).ok = false →
    ∀ r ∈ (s.writer vb).batch, r ∈ s.hist.failed
  waiting : ∀ shard, ∀ w ∈ s.waiting shard, ∀ r ∈ w.paid, (r, w.lsn) ∈ s.hist.stamps
  due : ∀ shard, ∀ w ∈ s.notified.getD [] ++ s.ready shard, w.lsn ≤ s.watermark
  released : cfg.durable = true → cfg.asyncDurable = true → ∀ r ∈ s.hist.released, r ∈ s.hist.failed ∨ s.Durable r

theorem stamps_subset_next (e : Event) : s.hist.stamps ⊆ (s.next e).hist.stamps := by
  cases e with
  | stamp vb lsn => exact List.subset_append_left ..
  | _ => exact List.Subset.refl _

theorem failed_subset_next (e : Event) : s.hist.failed ⊆ (s.next e).hist.failed := by
  cases e with
  | write vb ok =>
    simp only [next]
    split
    · exact List.Subset.refl _
    · exact List.subset_append_left ..
  | _ => exact List.Subset.refl _

theorem watermark_le_next (able : s.enabled e) : s.watermark ≤ (s.next e).watermark := by
  cases e with
  | watermark lsn => exact of_decide_eq_true able
  | _ => exact Nat.le_refl _

theorem Durable.next {r : Request} (durable : s.Durable r) (able : s.enabled e) : (s.next e).Durable r := by
  obtain ⟨lsn, stamped, covered⟩ := durable
  exact ⟨lsn, stamps_subset_next e stamped, covered.trans (watermark_le_next able)⟩

/-- What the writer's stamps and failures have to say about one writer. -/
private def WriterCovered (s : State cfg) (w : Writer) : Prop :=
  (w.phase = .stamped ∨ w.phase = .parked → ∀ r ∈ w.batch, (r, w.lsn) ∈ s.hist.stamps) ∧
    (w.phase = .marking → w.ok = false → ∀ r ∈ w.batch, r ∈ s.hist.failed)

private theorem writer_covered_next (covered : s.Covered) (able : s.enabled e) :
    ∀ vb, (s.next e).WriterCovered ((s.next e).writer vb) := by
  have old : ∀ vb, (s.next e).WriterCovered (s.writer vb) := fun vb =>
    ⟨fun phase r member => stamps_subset_next e (covered.stamped vb phase r member),
      fun phase failed r member => failed_subset_next e (covered.failed vb phase failed r member)⟩
  have idle : (s.next e).WriterCovered Writer.idle :=
    ⟨fun phase => by simp [Writer.idle] at phase, fun phase => by simp [Writer.idle] at phase⟩
  have put {vb : UInt16} {w : Writer} (new : (s.next e).WriterCovered w) :
      ∀ vb', (s.next e).WriterCovered (Function.update s.writer vb w vb') :=
    forall_update (P := fun _ => WriterCovered (s.next e)) new old
  cases e with
  | sweep vb => exact put ⟨fun phase => by simp at phase, fun phase => by simp at phase⟩
  | write vb ok =>
    have perm := planBatch_perm cfg.batchSort cfg.sortDupThreshold (s.writer vb).batch
    refine put ⟨fun phase => by simp at phase, fun _ failed r member => ?_⟩
    obtain rfl : ok = false := failed
    exact List.mem_append_right _ (perm.subset member)
  | mark vb | trim vb => exact put (old vb)
  | settle | addBytes | awaitDurable => exact put idle
  | stamp vb lsn =>
    refine put ⟨fun _ r member => ?_, fun phase => by simp at phase⟩
    exact List.mem_append_right _ (List.mem_map.mpr ⟨r, member, rfl⟩)
  | park vb =>
    obtain ⟨phase, _⟩ := of_decide_eq_true able
    exact put ⟨fun _ => (old vb).1 (.inl phase), fun phase => by simp at phase⟩
  | _ => exact old

private theorem waiting_covered_next (covered : s.Covered) (able : s.enabled e) (shard : ℕ) :
    ∀ w ∈ (s.next e).waiting shard, ∀ r ∈ w.paid, (r, w.lsn) ∈ (s.next e).hist.stamps := by
  intro w member r paid
  apply stamps_subset_next e
  rcases mem_waiting_next able member with old | new
  · exact covered.waiting shard w old r paid
  · cases e with
    | park vb =>
      simp only [enters] at new
      split at new
      · rw [List.mem_singleton.mp new] at paid
        exact (List.not_mem_nil paid).elim
      · exact (List.not_mem_nil new).elim
    | addBytes vb =>
      have phase : (s.writer vb).phase = .parked := of_decide_eq_true able
      obtain rfl := List.mem_singleton.mp new
      exact covered.stamped vb (.inr phase) r paid
    | awaitDurable vb =>
      obtain ⟨phase, _⟩ := of_decide_eq_true able
      simp only [enters] at new
      split at new
      · obtain rfl := List.mem_singleton.mp new
        exact covered.stamped vb (.inl phase) r paid
      · exact (List.not_mem_nil new).elim
    | _ => exact (List.not_mem_nil new).elim

private theorem due_next (covered : s.Covered) (able : s.enabled e) (shard : ℕ) :
    ∀ w ∈ (s.next e).notified.getD [] ++ (s.next e).ready shard, w.lsn ≤ (s.next e).watermark := by
  intro w member
  have old : w ∈ s.notified.getD [] ++ s.ready shard → w.lsn ≤ (s.next e).watermark := fun before =>
    (covered.due shard w before).trans (watermark_le_next able)
  cases e with
  | ledgerTake d =>
    obtain ⟨_, covers⟩ := of_decide_eq_true able
    rcases List.mem_append.mp member with taken | ready
    · have within := (List.mem_filter.mp taken).2
      simp only [decide_eq_true_eq] at within
      exact within.trans covers
    · exact old (List.mem_append_right _ ready)
  | ledgerSub entries =>
    exact old (List.mem_append_right _ ((List.mem_append.mp member).resolve_left List.not_mem_nil))
  | durableTake shard' d =>
    obtain ⟨_, covers⟩ := of_decide_eq_true able
    rcases List.mem_append.mp member with notified | ready
    · exact old (List.mem_append_left _ notified)
    · simp only [next, Function.update_apply] at ready
      split at ready
      · have within := List.mem_takeWhile_imp ready
        simp only [decide_eq_true_eq] at within
        exact within.trans covers
      · exact old (List.mem_append_right _ ready)
  | durableSub shard' p =>
    rcases List.mem_append.mp member with notified | ready
    · exact old (List.mem_append_left _ notified)
    · simp only [next, Function.update_apply] at ready
      split at ready
      · next same =>
        subst same
        exact old (List.mem_append_right _ (List.mem_of_mem_tail ready))
      · exact old (List.mem_append_right _ ready)
  | _ => exact old member

/-- In async-durable mode an event returns the bytes of writes that failed or that the log covers. -/
private theorem returned_covered (covered : s.Covered) (able : s.enabled e) (durable : cfg.durable = true)
    (async : cfg.asyncDurable = true) : ∀ r ∈ s.returned e, r ∈ s.hist.failed ∨ s.Durable r := by
  intro r member
  cases e with
  | settle vb =>
    obtain ⟨⟨phase, _⟩, immediate⟩ := of_decide_eq_true able
    have failed : (s.writer vb).ok = false := by
      by_contra succeeded
      exact immediate ⟨durable, async, by simpa using succeeded⟩
    exact .inl (covered.failed vb phase failed r member)
  | ledgerSub entries =>
    have notified : s.notified = some entries := of_decide_eq_true able
    obtain ⟨w, taken, paid⟩ := List.mem_flatMap.mp member
    have inNotified : w ∈ s.notified.getD [] := by rw [notified]; exact taken
    exact .inr ⟨w.lsn, covered.waiting 0 w (List.mem_append_left _ (List.mem_append_right _ inNotified)) r paid,
      covered.due 0 w (List.mem_append_left _ inNotified)⟩
  | durableSub shard p =>
    have head : (s.ready shard).head? = some p := of_decide_eq_true able
    have ready := List.mem_of_mem_head? head
    exact .inr ⟨p.lsn, covered.waiting shard p (List.mem_append_right _ (List.mem_append_right _ ready)) r member,
      covered.due shard p (List.mem_append_right _ ready)⟩
  | _ => exact (List.not_mem_nil member).elim

theorem Covered.next (covered : s.Covered) (able : s.enabled e) : (s.next e).Covered where
  stamped vb := (writer_covered_next covered able vb).1
  failed vb := (writer_covered_next covered able vb).2
  waiting := waiting_covered_next covered able
  due := due_next covered able
  released durable async r member := by
    rw [hist_released_next] at member
    have before : r ∈ s.hist.failed ∨ s.Durable r := (List.mem_append.mp member).elim
      (covered.released durable async r) (returned_covered covered able durable async r)
    exact before.imp (fun failed => failed_subset_next e failed) fun durable => durable.next able

theorem Covered.initial (maxBytes : ℕ) (store : UInt16 → Store) (seqnos : UInt16 → ℕ) :
    (State.initial cfg maxBytes store seqnos).Covered where
  stamped _ phase := by simp [State.initial, Writer.idle] at phase
  failed _ phase := by simp [State.initial, Writer.idle] at phase
  waiting _ _ member := (List.not_mem_nil member).elim
  due _ _ member := (List.not_mem_nil member).elim
  released _ _ _ member := (List.not_mem_nil member).elim

end State

end FluxKV.Engine
