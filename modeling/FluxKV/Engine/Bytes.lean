import FluxKV.Engine.Completion
import FluxKV.Engine.Staging

/-! # The byte count of the write queue

`queuedBytes_` is raised once per flush and lowered on five paths: by the writer itself, whether `WriteDocs`
succeeded or not, by the notifier for an entry of its ledger, and by a completion thread for a batch.
What was raised and not lowered is what was charged and not released, so no subtraction goes below zero,
and the count is zero only when every flushed write has been handed over and, if it waits for the log, is
covered by it.
-/

namespace FluxKV.Engine

open Protocol Cache Counting Machine

namespace State

variable {cfg : Config} {s : State cfg} {e : Event}

/-- The amount an event subtracts from `queuedBytes_`. -/
def returns (s : State cfg) : Event → ℕ
  | .settle vb => bytesOf cfg (s.writer vb).batch
  | .ledgerSub entries => (entries.map Waiting.bytes).sum
  | .durableSub _ p => p.bytes
  | _ => 0

/-- The amount it adds. -/
def charges (s : State cfg) : Event → ℕ
  | .charge t => s.bytes t
  | _ => 0

/-- The writes whose bytes it adds. -/
def charging (s : State cfg) : Event → List Request
  | .charge t => (s.touched t).flatMap (s.vbs t)
  | _ => []

theorem hist_charged_next (e : Event) : (s.next e).hist.charged = s.hist.charged ++ s.charging e := by
  cases e <;> first | rfl | exact (List.append_nil _).symm

theorem bytesOf_append (first second : List Request) :
    bytesOf cfg (first ++ second) = bytesOf cfg first + bytesOf cfg second := by
  simp only [bytesOf, List.map_append, List.sum_append]

/-- What is counted is what was charged and not released. -/
structure Conserved (s : State cfg) : Prop where
  flow : s.Flow
  stocked : s.Stocked
  accounted : s.Accounted
  covered : s.Covered
  queued : s.queuedBytes + bytesOf cfg s.hist.released = bytesOf cfg s.hist.charged

/-- What was returned was pushed, and what was pushed was charged. -/
theorem Accounted.released_le (accounts : s.Accounts) (accounted : s.Accounted) (r : Request) :
    s.hist.released.count r ≤ s.hist.flushed.count r := by
  have := accounted.places r
  have := accounts.flushed r
  omega

theorem Stocked.flushed_le (stocked : s.Stocked) (r : Request) : s.hist.flushed.count r ≤ s.hist.charged.count r := by
  have := stocked.charged r
  omega

theorem bytesOf_diff (cfg : Config) {whole part : List Request} (inside : ∀ r, part.count r ≤ whole.count r) :
    bytesOf cfg whole = bytesOf cfg part + bytesOf cfg (whole.diff part) :=
  sum_map_diff _ inside

private theorem bytesOf_paidOf {entries : List Waiting} (bytes : ∀ w ∈ entries, w.bytes = bytesOf cfg w.paid) :
    (entries.map Waiting.bytes).sum = bytesOf cfg (paidOf entries) := by
  induction entries with
  | nil => rfl
  | cons w rest ih =>
    obtain ⟨here, others⟩ := List.forall_mem_cons.mp bytes
    rw [List.map_cons, List.sum_cons, here, ih others]
    exact (bytesOf_append w.paid (paidOf rest)).symm

theorem Accounted.returns_eq (accounted : s.Accounted) (able : s.enabled e) :
    s.returns e = bytesOf cfg (s.returned e) := by
  cases e with
  | ledgerSub entries =>
    have notified : s.notified = some entries := of_decide_eq_true able
    refine bytesOf_paidOf fun w member => accounted.bytes 0 w (List.mem_append_left _ (List.mem_append_right _ ?_))
    rw [notified]
    exact member
  | durableSub shard p =>
    have head : (s.ready shard).head? = some p := of_decide_eq_true able
    exact accounted.bytes shard p (List.mem_append_right _ (List.mem_append_right _ (List.mem_of_mem_head? head)))
  | _ => rfl

theorem Stocked.charges_eq (stocked : s.Stocked) (able : s.enabled e) :
    s.charges e = bytesOf cfg (s.charging e) := by
  cases e with
  | charge t =>
    have idle : s.pc t = .idle := of_decide_eq_true able
    have bytes := stocked.bytes t
    rwa [if_neg (by rw [idle]; simp)] at bytes
  | _ => rfl

theorem queuedBytes_next (e : Event) :
    (s.next e).queuedBytes = fetchSub 64 (s.queuedBytes + s.charges e) (s.returns e) := by
  cases e <;> simp [State.next, charges, returns, fetchSub]

/-- No event subtracts more than is there. -/
theorem Conserved.returns_le (conserved : s.Conserved) (able : s.enabled e) : s.returns e ≤ s.queuedBytes := by
  have accounted := conserved.accounted.next conserved.flow.homes able
  have accounts := conserved.flow.accounts.next conserved.flow.homes able
  have stocked := conserved.stocked.next conserved.flow.homes able
  have whole := bytesOf_diff cfg fun r => (accounted.released_le accounts r).trans (stocked.flushed_le r)
  rw [hist_released_next, hist_charged_next, bytesOf_append, bytesOf_append] at whole
  rw [← conserved.accounted.returns_eq able, ← conserved.stocked.charges_eq able] at whole
  have := conserved.queued
  cases e with
  | charge t => exact Nat.zero_le _
  | _ =>
    simp only [charges] at whole
    omega

theorem Conserved.step {t : State cfg} (conserved : s.Conserved) (taken : s.step e = some t) : t.Conserved := by
  have flow := conserved.flow.step taken
  obtain ⟨able, rfl⟩ := step_eq_some.mp taken
  refine ⟨flow, conserved.stocked.next conserved.flow.homes able, conserved.accounted.next conserved.flow.homes able,
    conserved.covered.next able, ?_⟩
  have fits : s.returns e ≤ s.queuedBytes + s.charges e := (conserved.returns_le able).trans (Nat.le_add_right ..)
  rw [queuedBytes_next, fetchSub_of_le fits, hist_released_next, hist_charged_next, bytesOf_append, bytesOf_append,
    ← conserved.accounted.returns_eq able, ← conserved.stocked.charges_eq able]
  have := conserved.queued
  omega

theorem Conserved.initial (maxBytes : ℕ) (store : UInt16 → Store) (seqnos : UInt16 → ℕ) :
    (State.initial cfg maxBytes store seqnos).Conserved :=
  ⟨.initial maxBytes store seqnos, .initial maxBytes store seqnos, .initial maxBytes store seqnos,
    .initial maxBytes store seqnos, rfl⟩

private theorem bytesOf_eq_zero_iff {reqs : List Request} : bytesOf cfg reqs = 0 ↔ reqs = [] := by
  cases reqs with
  | nil => exact ⟨fun _ => rfl, fun _ => rfl⟩
  | cons r rest =>
    have positive := cfg.sizeofRequest_pos
    have size : bytesOf cfg (r :: rest) = r.itemSize cfg.sizeofRequest + bytesOf cfg rest := by
      simp only [bytesOf, List.map_cons, List.sum_cons]
    rw [Request.itemSize] at size
    exact ⟨fun zero => by omega, fun empty => by cases empty⟩

theorem Conserved.charged_le_one (conserved : s.Conserved) (r : Request) : s.hist.charged.count r ≤ 1 := by
  have charged := conserved.stocked.charged r
  have := conserved.flow.accounts.staged r
  have := conserved.flow.accounts.accepted r
  have := List.nodup_iff_count_le_one.mp conserved.flow.accounts.puts r
  split at charged <;> omega

/-- The count is zero exactly when the bytes of every charged write have been returned. -/
theorem Conserved.queuedBytes_eq_zero_iff (conserved : s.Conserved) :
    s.queuedBytes = 0 ↔ ∀ r ∈ s.hist.charged, r ∈ s.hist.released := by
  have released := conserved.accounted.released_le conserved.flow.accounts
  have charged := conserved.stocked.flushed_le
  have whole := bytesOf_diff cfg fun r => (released r).trans (charged r)
  have queued : s.queuedBytes = bytesOf cfg (s.hist.charged.diff s.hist.released) := by
    have := conserved.queued
    omega
  rw [queued, bytesOf_eq_zero_iff]
  constructor
  · intro empty r member
    have none : (s.hist.charged.diff s.hist.released).count r = 0 := by rw [empty, List.count_nil]
    rw [List.count_diff] at none
    have := List.count_pos_iff.mpr member
    exact List.count_pos_iff.mp (by omega)
  · intro all
    apply List.eq_nil_iff_forall_not_mem.mpr
    intro r member
    have some := List.count_pos_iff.mpr member
    rw [List.count_diff] at some
    have := conserved.charged_le_one r
    have := List.count_pos_iff.mpr (all r (List.count_pos_iff.mp (by omega)))
    omega

/-- A write whose bytes were returned was handed to `WriteDocs` and, in async-durable mode, failed there or
is covered by the durable log. -/
def Completed (s : State cfg) (r : Request) : Prop :=
  r ∈ (s.hist.handed r.vbucket).flatten ∧
    (cfg.durable = true → cfg.asyncDurable = true → r ∈ s.hist.failed ∨ s.Durable r)

/-- In every reachable state `queuedBytes_` is at least the size of the writes flushed and not released, and
is just that when no flush is under way. No subtraction takes it below zero. It is zero exactly when
the bytes of every charged write were returned, which they are only once the write is completed, and then
every flushed write is. -/
theorem queued_bytes_conserved {maxBytes : ℕ} {store : UInt16 → Store} {seqnos : UInt16 → ℕ}
    (reached : Reach State.step (State.initial cfg maxBytes store seqnos) s) :
    bytesOf cfg (s.hist.flushed.diff s.hist.released) ≤ s.queuedBytes ∧
    ((∀ t, s.pc t ≠ .flushing) → s.queuedBytes = bytesOf cfg (s.hist.flushed.diff s.hist.released)) ∧
    (∀ e, s.enabled e = true → s.returns e ≤ s.queuedBytes) ∧
    (s.queuedBytes = 0 ↔ ∀ r ∈ s.hist.charged, r ∈ s.hist.released) ∧
    (∀ r ∈ s.hist.released, s.Completed r) ∧
    (s.queuedBytes = 0 → ∀ r ∈ s.hist.flushed, s.Completed r) := by
  have conserved : s.Conserved := reached.invariant (.initial maxBytes store seqnos) fun conserved taken =>
    conserved.step taken
  have released := conserved.accounted.released_le conserved.flow.accounts
  have charged := conserved.stocked.flushed_le
  have whole := bytesOf_diff cfg released
  have more := bytesOf_diff cfg charged
  have queued := conserved.queued
  have completed : ∀ r ∈ s.hist.released, s.Completed r := fun r member =>
    ⟨conserved.accounted.handed_of_released conserved.flow.accounts member,
      fun durable async => conserved.covered.released durable async r member⟩
  refine ⟨by omega, fun quiet => ?_, fun e able => conserved.returns_le able, conserved.queuedBytes_eq_zero_iff,
    completed, fun zero r member => ?_⟩
  · have same : s.hist.charged.Perm s.hist.flushed := List.perm_iff_count.mpr fun r => by
      rw [conserved.stocked.charged r, if_neg (quiet r.thread), Nat.add_zero]
    have equal : bytesOf cfg s.hist.charged = bytesOf cfg s.hist.flushed := (same.map _).sum_eq
    omega
  · have inCharged : r ∈ s.hist.charged := List.count_pos_iff.mp ((List.count_pos_iff.mpr member).trans_le (charged r))
    exact completed r (conserved.queuedBytes_eq_zero_iff.mp zero r inCharged)

end State

/-- A durable bucket with asynchronous completion through the notifier. -/
def notifiedConfig : Config := { plainConfig with durable := true, asyncDurable := true, notifier := true }

/-- A SET of `k` that loop 0 answers. -/
def ownedSet : Request := ⟨0, 0, 0, [107], .set [1] 0 0 0, some 0⟩

/-- Its way to the ledger, where it waits for the log to reach position 5, and the log passing that. -/
def untilCovered : List Event :=
  [.put ownedSet none, .accept ownedSet, .charge 0, .push 0 0, .flushed 0, .sweep 0, .write 0 true, .mark 0 ownedSet 1,
    .stamp 0 5, .park 0, .addBytes 0, .watermark 7]

/-- The notifier returns the bytes, and the count is zero with the write completed. -/
theorem queued_bytes_after_notifier : ∃ s, Reach State.step (plainStart notifiedConfig 1000) s ∧
    s.hist.flushed = [ownedSet] ∧ s.queuedBytes = 0 ∧ ∀ r ∈ s.hist.flushed, s.Completed r := by
  obtain ⟨s, reached, flushed, zero⟩ : ∃ s, Reach State.step (plainStart notifiedConfig 1000) s ∧
      s.hist.flushed = [ownedSet] ∧ s.queuedBytes = 0 :=
    exists_reach (untilCovered ++ [.ledgerTake 7, .ledgerSub [⟨5, 3, [], [ownedSet]⟩]]) (by decide +kernel)
  obtain ⟨_, _, _, _, _, completed⟩ := State.queued_bytes_conserved reached
  exact ⟨s, reached, flushed, zero, completed zero⟩

/-- The write has been handed over with success and the log covers it, no thread is in the middle of
anything, and the count is still its size: the notifier has not run since the watermark moved. -/
theorem queued_bytes_lag_watermark : ∃ s, Reach State.step (plainStart notifiedConfig 1000) s ∧
    s.hist.flushed = [ownedSet] ∧ s.hist.handed 0 = [[ownedSet]] ∧ s.hist.failed = [] ∧
      s.hist.stamps = [(ownedSet, 5)] ∧ s.watermark = 7 ∧ s.pc 0 = .idle ∧ s.writer 0 = .idle ∧ s.notified = none ∧
      s.queuedBytes = 3 :=
  exists_reach untilCovered (by decide +kernel)

end FluxKV.Engine
