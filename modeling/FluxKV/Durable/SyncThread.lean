import FluxKV.Machine.Run
import Mathlib.Algebra.Order.Ring.Nat

/-! # Checkpoints without a log

Without a write-ahead log a crash keeps what the checkpoints have. A thread visits the vbuckets one after the other,
and syncs one whose greatest seqno has changed since its last sync, while writers go on. A vbucket that is visited
while a write is on its way is left as it is until the next round.
-/

namespace FluxKV.Durable.SyncThread

open Machine

/-- Where the visit of a vbucket stands: before `GetMaxSeqno`, in `SyncKVStore` with the seqno that was read, and before
the thread sleeps. -/
inductive Visit where
  | begins
  | syncing (seq : ℕ)
  | done
deriving DecidableEq, Repr

/-- The thread's variables, and of each vbucket the greatest seqno and that up to which the checkpoint has all writes. -/
structure State where
  vb : ℕ
  visit : Visit
  synced : ℕ → ℕ
  seqno : ℕ → ℕ
  checkpoint : ℕ → ℕ

inductive Event where
  | write (vb : ℕ)
  | getMaxSeqno (ok : Bool)
  /-- `SyncKVStore` returns. What was written while it ran may be in the checkpoint or not. -/
  | syncKVStore (ok : Bool) (covered : ℕ)
  | sleep
deriving DecidableEq, Repr

/-- The call to the store did not fail. -/
def Event.Succeeds : Event → Prop
  | getMaxSeqno ok | syncKVStore ok _ => ok = true
  | write _ | sleep => True

instance : DecidablePred Event.Succeeds := fun e => by
  cases e <;> unfold Event.Succeeds <;> infer_instance

namespace State

/-- The thread starts over stores that were opened with what their checkpoints have. -/
def start (recovered : ℕ → ℕ) : State := ⟨0, .begins, fun _ => 0, recovered, recovered⟩

def enabled (s : State) : Event → Bool
  | .write _ => true
  | .getMaxSeqno _ => s.visit = .begins
  | .syncKVStore _ covered => match s.visit with
    | .syncing seq => seq ≤ covered ∧ covered ≤ s.seqno s.vb
    | _ => false
  | .sleep => s.visit = .done

def next (vbuckets : ℕ) (s : State) : Event → State
  | .write vb => { s with seqno := Function.update s.seqno vb (s.seqno vb + 1) }
  | .getMaxSeqno ok =>
    { s with visit := if ok ∧ s.seqno s.vb ≠ s.synced s.vb then .syncing (s.seqno s.vb) else .done }
  | .syncKVStore ok covered => match ok, s.visit with
    | true, .syncing seq =>
      { s with
        visit := .done
        synced := Function.update s.synced s.vb seq
        checkpoint := Function.update s.checkpoint s.vb (max (s.checkpoint s.vb) covered) }
    | _, _ => { s with visit := .done }
  | .sleep => { s with vb := (s.vb + 1) % vbuckets, visit := .begins }

def step (vbuckets : ℕ) (s : State) (e : Event) : Option State :=
  if s.enabled e then some (s.next vbuckets e) else none

variable {vbuckets : ℕ} {s t u : State} {e : Event} {past : List Event}

theorem step_eq_some : s.step vbuckets e = some t ↔ s.enabled e ∧ s.next vbuckets e = t :=
  ite_some_eq_some

theorem of_syncKVStore {ok : Bool} {covered : ℕ} (able : s.enabled (.syncKVStore ok covered)) :
    ∃ seq, s.visit = .syncing seq ∧ seq ≤ covered ∧ covered ≤ s.seqno s.vb := by
  simp only [enabled] at able
  split at able
  · next seq visit => exact ⟨seq, visit, of_decide_eq_true able⟩
  · cases able

theorem seqno_next (vb : ℕ) : s.seqno vb ≤ (s.next vbuckets e).seqno vb := by
  cases e with
  | write other =>
    rcases eq_or_ne vb other with rfl | apart
    · simp only [State.next, Function.update_self, Nat.le_succ]
    · simp only [State.next, Function.update_of_ne apart, le_refl]
  | syncKVStore ok covered =>
    simp only [State.next]
    split <;> exact le_rfl
  | getMaxSeqno | sleep => exact le_rfl

/-- A seqno that counts as synced is in the checkpoint, and only what was written is. -/
structure Kept (vbuckets : ℕ) (s : State) : Prop where
  vb : s.vb < vbuckets
  synced : ∀ vb, s.synced vb ≤ s.checkpoint vb
  written : ∀ vb, s.checkpoint vb ≤ s.seqno vb

theorem kept_start (any : 0 < vbuckets) (recovered : ℕ → ℕ) : (start recovered).Kept vbuckets :=
  ⟨any, fun _ => Nat.zero_le _, fun _ => le_refl _⟩

theorem Kept.next (kept : s.Kept vbuckets) (able : s.enabled e) : (s.next vbuckets e).Kept vbuckets := by
  cases e with
  | write vb =>
    exact ⟨kept.vb, kept.synced, fun other => (kept.written other).trans (seqno_next (e := .write vb) other)⟩
  | getMaxSeqno ok => exact ⟨kept.vb, kept.synced, kept.written⟩
  | syncKVStore ok covered =>
    obtain ⟨seq, visit, covers, written⟩ := of_syncKVStore able
    cases ok with
    | false => exact ⟨kept.vb, kept.synced, kept.written⟩
    | true =>
      simp only [State.next, visit]
      refine ⟨kept.vb, fun other => ?_, fun other => ?_⟩
      all_goals
        dsimp only
        rcases eq_or_ne other s.vb with rfl | apart
        · simp only [Function.update_self]
          have := kept.written s.vb
          omega
        · simp only [Function.update_of_ne apart]
          first | exact kept.synced other | exact kept.written other
  | sleep => exact ⟨Nat.mod_lt _ (Nat.zero_lt_of_lt kept.vb), kept.synced, kept.written⟩

theorem checkpoint_next (vb : ℕ) : s.checkpoint vb ≤ (s.next vbuckets e).checkpoint vb := by
  cases e with
  | syncKVStore ok covered =>
    simp only [State.next]
    split
    · rcases eq_or_ne vb s.vb with rfl | apart
      · simp only [Function.update_self, le_max_left]
      · simp only [Function.update_of_ne apart, le_refl]
    · exact le_rfl
  | write | getMaxSeqno | sleep => exact le_rfl

/-- Since `s`, the thread has slept so many times: the visits between two sleeps have what was written before `s` in the
checkpoint, and the one that is under way will have. -/
structure Swept (vbuckets : ℕ) (s : State) (sleeps : ℕ) (t : State) : Prop where
  vb : t.vb = (s.vb + sleeps) % vbuckets
  seqno : ∀ vb, s.seqno vb ≤ t.seqno vb
  behind : ∀ j, 0 < j → j < sleeps → s.seqno ((s.vb + j) % vbuckets) ≤ t.checkpoint ((s.vb + j) % vbuckets)
  syncing : 0 < sleeps → ∀ seq, t.visit = .syncing seq → s.seqno t.vb ≤ seq
  visited : 0 < sleeps → t.visit = .done → s.seqno t.vb ≤ t.checkpoint t.vb

theorem Swept.next {sleeps : ℕ} (swept : Swept vbuckets s sleeps t) (kept : t.Kept vbuckets)
    (able : t.enabled e) (succeeds : e.Succeeds) :
    Swept vbuckets s (sleeps + if e = .sleep then 1 else 0) (t.next vbuckets e) := by
  have seqno vb : s.seqno vb ≤ (t.next vbuckets e).seqno vb := (swept.seqno vb).trans (seqno_next vb)
  have behind j (after : 0 < j) (before : j < sleeps) :
      s.seqno ((s.vb + j) % vbuckets) ≤ (t.next vbuckets e).checkpoint ((s.vb + j) % vbuckets) :=
    (swept.behind j after before).trans (checkpoint_next _)
  cases e with
  | write vb => exact ⟨swept.vb, seqno, behind, swept.syncing, swept.visited⟩
  | getMaxSeqno ok =>
    have ok : ok = true := succeeds
    subst ok
    refine ⟨swept.vb, seqno, behind, fun later seq syncing => ?_, fun later done => ?_⟩
    · simp only [State.next, true_and] at syncing
      split at syncing
      · cases syncing
        exact swept.seqno t.vb
      · cases syncing
    · simp only [State.next, true_and] at done
      split at done
      · cases done
      · next unchanged =>
        -- the vbucket is passed over, and what was synced is all of it
        calc s.seqno t.vb ≤ t.seqno t.vb := swept.seqno t.vb
          _ = t.synced t.vb := not_not.mp unchanged
          _ ≤ t.checkpoint t.vb := kept.synced t.vb
  | syncKVStore ok covered =>
    have ok : ok = true := succeeds
    subst ok
    obtain ⟨seq, visit, covers, -⟩ := of_syncKVStore able
    simp only [State.next, visit] at seqno behind ⊢
    refine ⟨swept.vb, seqno, behind, fun _ _ syncing => (nomatch syncing), fun later _ => ?_⟩
    simp only [Function.update_self]
    exact ((swept.syncing later seq visit).trans covers).trans (le_max_right _ _)
  | sleep =>
    refine ⟨?_, seqno, fun j after before => ?_, fun _ _ syncing => (nomatch syncing), fun _ done => (nomatch done)⟩
    · simp only [State.next, swept.vb, Nat.mod_add_mod, if_true, Nat.add_assoc]
    · rcases Nat.lt_or_eq_of_le (Nat.lt_succ_iff.mp before) with earlier | rfl
      · exact behind j after earlier
      · rw [← swept.vb]
        exact swept.visited after (of_decide_eq_true able)

/-- What counts as synced is in the checkpoint. In a stretch in which no call fails and the thread sleeps one time more
than there are vbuckets, all that was written before it comes into the checkpoints, whatever is written meanwhile. -/
theorem round_checkpoints_all {recovered : ℕ → ℕ} (any : 0 < vbuckets)
    (reached : Reach (step vbuckets) (start recovered) s) :
    (∀ vb, s.synced vb ≤ s.checkpoint vb) ∧
      ∀ es t, exec (restrict (fun _ e => e.Succeeds) (step vbuckets)) s es = some t → vbuckets < es.count .sleep →
        ∀ vb < vbuckets, s.seqno vb ≤ t.checkpoint vb := by
  have kept : s.Kept vbuckets := by
    refine reached.invariant (kept_start any recovered) fun before taken => ?_
    obtain ⟨able, rfl⟩ := step_eq_some.mp taken
    exact before.next able
  refine ⟨kept.synced, fun es t run round vb inside => ?_⟩
  have swept : t.Kept vbuckets ∧ Swept vbuckets s (es.count .sleep) t := by
    refine exec_history (P := fun past t => t.Kept vbuckets ∧ Swept vbuckets s (past.count .sleep) t) ?_ ?_ run
    · exact ⟨kept, (Nat.mod_eq_of_lt kept.vb).symm, fun _ => le_rfl, nofun, nofun, nofun⟩
    · rintro past t e u ⟨kept, swept⟩ taken
      obtain ⟨succeeds, taken⟩ := restrict_eq_some.mp taken
      obtain ⟨able, rfl⟩ := step_eq_some.mp taken
      refine ⟨kept.next able, ?_⟩
      rw [List.count_append, List.count_singleton]
      simpa only [beq_iff_eq] using swept.next kept able succeeds
  -- the vbucket is one of those that were visited from beginning to end
  obtain ⟨j, after, before, here⟩ : ∃ j, 0 < j ∧ j ≤ vbuckets ∧ (s.vb + j) % vbuckets = vb := by
    have low := kept.vb
    rcases Nat.lt_or_ge s.vb vb with below | above
    · exact ⟨vb - s.vb, by omega, by omega, by rw [Nat.add_sub_cancel' below.le, Nat.mod_eq_of_lt inside]⟩
    · refine ⟨vbuckets + vb - s.vb, by omega, by omega, ?_⟩
      rw [show s.vb + (vbuckets + vb - s.vb) = vb + vbuckets by omega, Nat.add_mod_right, Nat.mod_eq_of_lt inside]
  exact here ▸ swept.2.behind j after (before.trans_lt round)

/-- A write while the thread is in its visit, which the visit has not seen. -/
def lateWrite : List Event := [.write 0, .getMaxSeqno true, .write 0]

/-- The rest of that visit, one of the other vbucket, and the whole of the next one. -/
def nextRound : List Event :=
  [.syncKVStore true 1, .sleep, .getMaxSeqno true, .sleep, .getMaxSeqno true, .write 0, .syncKVStore true 2, .sleep]

theorem round_checkpoints_all_late : ∃ s t, exec (step 2) s nextRound = some t ∧ s.seqno 0 = 2 ∧ s.checkpoint 0 = 0 ∧
    t.seqno 0 = 3 ∧ 2 ≤ t.checkpoint 0 := by
  have start : ∃ s, exec (step 2) (start fun _ => 0) lateWrite = some s ∧ s.seqno 0 = 2 ∧ s.checkpoint 0 = 0 ∧
      (exec (restrict (fun _ e => e.Succeeds) (step 2)) s nextRound).any (·.seqno 0 = 3) :=
    exists_exec (by decide +kernel)
  obtain ⟨s, run, written, unsynced, later⟩ := start
  obtain ⟨t, rest, more⟩ := exists_exec later
  have all := (round_checkpoints_all (by decide) ⟨lateWrite, run⟩).2 nextRound t rest (by decide) 0 (by decide)
  exact ⟨s, t, exec_of_restrict rest, written, unsynced, more, written ▸ all⟩

end State

end FluxKV.Durable.SyncThread
