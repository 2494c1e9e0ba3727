import FluxKV.Connection.Send.Closing

/-! # Responses left to another sender

A sender that finds the mutex taken leaves its responses in `sendPending_`, tries once more and goes away. The
send paths of the mutex look at `sendPending_` after they have unlocked it, so what was left while they held it is
found. `releaseOutstanding` and `migrateTo` hold the mutex as well, and they do not look. Responses left to one of
them stay until something else flushes the connection.
-/

namespace FluxKV.Connection.Send

open Machine

variable {cfg : Config} {s : State} {e : Event} {m : Move} {i : ℕ}

/-- Looks at `sendPending_` before it is over. -/
def Op.watches : Op → Bool
  | retry | take _ _ | look _ _ | send _ _ _ | unlockHeld _ | recheck _ | relock _ | drain | drainTry | batch _ | flush _
  | flushLock _ | flushSpill _ | chainLock _ | chainSpill _ | writeChain _ => true
  | flushBuf locked | flushEnd locked | chainBuf _ locked | chainEnd locked => locked
  | _ => false

/-- The thread that finds the mutex taken at its last try. -/
def Event.givesUp : Event → Option ℕ
  | run i .retryBusy | run i (.relockBusy _) | run i .drainBusy => some i
  | _ => none

namespace State

/-- A call in progress, or a posted or scheduled flush, is going to look at `sendPending_`. -/
def Watched (s : State) : Prop :=
  (s.flushCb = true ∨ s.flushTimeout = true) ∨ ∃ op ∈ s.calls.flatten ++ s.mail, op.watches = true

instance (s : State) : Decidable s.Watched := inferInstanceAs (Decidable (_ ∨ _))

/-- A thread that gives up on the mutex leaves nothing behind, or something else is going to look. -/
def Minded (s : State) (e : Event) : Prop :=
  ∀ i ∈ e.givesUp, s.sendPending = [] ∨ (s.setStack i (stackAt s.calls i).tail).Watched

instance (s : State) (e : Event) : Decidable (s.Minded e) :=
  inferInstanceAs (Decidable (∀ i ∈ e.givesUp, s.sendPending = [] ∨ (s.setStack i (stackAt s.calls i).tail).Watched))

/-- Responses left in `sendPending_` are going to be found. -/
def Handed (s : State) : Prop := s.sendPending ≠ [] → s.Watched

theorem Watched.of_added {op : Op} (able : s.enabled cfg e) (loop : 0 < s.calls.length) (member : op ∈ e.new)
    (watches : op.watches = true) : (s.next e).Watched :=
  .inr ⟨op, added_subset_next able loop (List.mem_append_left _ member), watches⟩

/-- An event that neither takes back a scheduled flush nor carries out a watching operation keeps the watch. -/
theorem Watched.keep (watched : s.Watched) (able : s.enabled cfg e) (loop : 0 < s.calls.length)
    (scheduled : s.flushCb = true ∨ s.flushTimeout = true → (s.next e).flushCb = true ∨ (s.next e).flushTimeout = true)
    (other : ∀ old ∈ e.old, old.watches = false) : (s.next e).Watched := by
  rcases watched with flags | pending
  · exact .inl (scheduled flags)
  · refine .inr (exists_ops_next able loop pending fun old member watches => ?_)
    rw [other old member] at watches
    cases watches

/-- What the rest of a thread's stack, the other threads and the loop are going to do is not touched by a move that
only replaces the top of the stack. -/
theorem Watched.of_rest {rest : List Op} (top : stackAt s.calls i = m.op :: rest)
    (watched : (s.setStack i (stackAt s.calls i).tail).Watched)
    (flags : (m.effect s i).flushCb = s.flushCb ∧ (m.effect s i).flushTimeout = s.flushTimeout)
    (mail : (m.effect s i).mail = s.mail) : (s.next (.run i m)).Watched := by
  rw [top, List.tail_cons] at watched
  rcases watched with scheduled | ⟨op, member, watches⟩
  · refine .inl ?_
    simp only [State.next, setStack, flags.1, flags.2]
    exact scheduled
  · refine .inr ⟨op, ?_, watches⟩
    rw [next_run_calls top]
    simp only [State.next, setStack, mail]
    rcases List.mem_append.mp member with call | posted
    · have turned : (s.calls.set i (m.new ++ rest)).flatten.Perm (m.new ++ (s.calls.set i rest).flatten) :=
        flatten_set_perm (lt_length_of_stackAt top)
      exact List.mem_append_left _ (turned.symm.subset (List.mem_append_right _ call))
    · exact List.mem_append_right _ posted

theorem Handed.next (handed : s.Handed) (coherent : s.Coherent cfg) (closed : s.Closed) (able : s.enabled cfg e)
    (minded : s.Minded e) : (s.next e).Handed := by
  intro some
  have loop := coherent.sane.loop
  have counted : (s.next e).outstanding ≠ 0 :=
    fun zero => some ((coherent.next able).of_outstanding_eq_zero zero).2.1
  cases e with
  | run i m =>
    obtain ⟨rest, top, guard⟩ := enabled_run able
    have added : ∀ {op : Op}, op ∈ m.new → op.watches = true → (s.next (.run i m)).Watched :=
      fun member => .of_added able loop member
    have keep : s.sendPending ≠ [] → (s.flushCb = true ∨ s.flushTimeout = true →
        (m.effect s i).flushCb = true ∨ (m.effect s i).flushTimeout = true) →
        m.op.watches = false → (s.next (.run i m)).Watched :=
      fun some scheduled other => (handed some).keep able loop scheduled (List.forall_mem_singleton.mpr other)
    change (m.effect s i).sendPending ≠ [] at some
    cases m with
    | casPush | take | look | lookDone | sendAll | sendSome | sendBroken | sendNone | unlockHeld | recheckSome
    | relockLocked | retryLocked | drainSome | drainLocked | flushClosing | flushDirect | flushLock | flushSpillNone
    | flushUnlock | chainDirect | chainLock | chainSpillNone | chainUnlock | batch | flushNow | leaveFlush =>
      exact added List.mem_cons_self rfl
    | flushSpillSome | chainSpillSome | destroy => exact added (List.mem_cons_of_mem _ List.mem_cons_self) rfl
    | recheckNone | drainNone => exact (some (of_decide_eq_true guard)).elim
    | retryBusy | relockBusy | drainBusy =>
      rcases minded i rfl with none | watched
      · exact (some none).elim
      · exact watched.of_rest top ⟨rfl, rfl⟩ rfl
    | flushClosed | flushPlain =>
      have unset := Bool.eq_false_of_not_eq_true' (Bool.and_eq_true_iff.mp guard).2
      exact (some (coherent.plain unset).1).elim
    | chainPlain =>
      have unset : cfg.directSend = false := Bool.eq_false_of_not_eq_true' guard
      exact (some (coherent.plain unset).1).elim
    | flushBufNone locked =>
      cases locked with
      | true => exact added List.mem_cons_self rfl
      | false => exact keep some (fun flags => flags) rfl
    | flushBufSome locked | chainBuf r locked =>
      cases locked with
      | true => exact added (List.mem_cons_of_mem _ List.mem_cons_self) rfl
      | false => exact keep some (fun flags => flags) rfl
    | flushTimer => exact keep some (fun _ => .inr rfl) rfl
    | flushLoop => exact keep some (fun _ => .inl rfl) rfl
    | leaveGo =>
      obtain rfl := coherent.sane.eq_zero_of_mem (mem_stackAt top) rfl
      exact (counted (coherent.leaving.drained _ (mem_stackAt top) (.inl rfl)).1).elim
    | subDelete k => exact (counted (sub_eq_zero.mpr (of_decide_eq_true guard).1)).elim
    | delete =>
      exact (counted (closed.drained (.inr (List.mem_append_left _ (mem_flatten_of_stackAt top))))).elim
    | _ => exact keep some (fun flags => flags) rfl
  | call c =>
    have keep : (s.flushCb = true ∨ s.flushTimeout = true →
        (s.next (.call c)).flushCb = true ∨ (s.next (.call c)).flushTimeout = true) →
        s.sendPending ≠ [] → (s.next (.call c)).Watched :=
      fun scheduled some => (handed some).keep able loop scheduled fun _ absurd => nomatch absurd
    cases c with
    | flushCb | flushTimeout => exact .of_added able loop List.mem_cons_self rfl
    | _ => exact keep (fun flags => flags) some
  | _ => exact (handed some).keep able loop (fun flags => flags) fun _ absurd => nomatch absurd

/-- No call is in progress and the loop has no callback of the connection. -/
structure Idle (s : State) : Prop where
  calls : s.calls.flatten = []
  mail : s.mail = []
  flush : s.flushCb = false ∧ s.flushTimeout = false
  migrate : s.migrateCb = false
  resume : s.resumeTimeout = false

theorem Handed.sendPending_of_idle (handed : s.Handed) (idle : s.Idle) : s.sendPending = [] := by
  by_contra some
  rcases handed some with (flag | flag) | ⟨op, member, _⟩
  · rw [idle.flush.1] at flag
    cases flag
  · rw [idle.flush.2] at flag
    cases flag
  · rw [idle.calls, idle.mail] at member
    cases member

theorem handed_of_reach (reached : Reach (restrict Minded (step cfg)) start s) : s.Handed := by
  have all : s.Coherent cfg ∧ s.Closed ∧ s.Handed := by
    refine Reach.invariant (P := fun s => s.Coherent cfg ∧ s.Closed ∧ s.Handed)
      ⟨coherent_start, closed_start, fun absurd => (absurd rfl).elim⟩ ?_ reached
    intro s e t before taken
    obtain ⟨minded, taken⟩ := restrict_eq_some.mp taken
    obtain ⟨able, rfl⟩ := step_eq_some taken
    obtain ⟨coherent, closed, handed⟩ := before
    exact ⟨coherent.next able, closed.next coherent able, handed.next coherent closed able minded⟩
  exact all.2.2

theorem no_response_stranded (reached : Reach (restrict Minded (step cfg)) start s) (idle : s.Idle) :
    s.sendPending = [] :=
  (handed_of_reach reached).sendPending_of_idle idle

/-- Two GETs go to the engine in one read. -/
def twoGets (first second : GetReply) : List Event :=
  let loop := Event.run 0
  [.call .readDataAvailable, loop (.parseDispatch first.id), loop (.parseDispatch second.id), loop .parseEnd,
    loop (.settle true), loop (.settledFlush true), loop (.flushDirect none), loop (.flushLock none),
    loop (.flushSpillNone none), loop (.flushBufNone true), loop .flushUnlock, loop .drainNone]

/-- A reader writes its response, and a second one finds the mutex taken, by `sendHeld`, and leaves its own. -/
def leftToSender (first second : GetReply) : List Event :=
  let one := Event.run 1
  let two := Event.run 2
  let both : List Chunk := [([first], false), ([second], false)]
  twoGets first second ++
  [.reader [first], one (.directLocked [first]), one (.take [first] [] []), .reader [second],
    two (.directBusy [second]), two (.hold [second]), two (.loadPending [second] none), two (.casPush [second] none),
    two .retryBusy, two (.releaseBusy 1), two (.load 1 3), one (.look [first] [] true), one (.sendAll [first] []),
    one (.lookDone (both.take 1)), two (.lowerCas 1 3), two (.lowerDone 2), one (.unlockHeld (both.take 1)),
    one (.recheckSome (both.take 1)), one (.relockLocked (both.take 1)), one (.take [] (both.take 1) [second]),
    one (.look [second] (both.take 1) true), one (.sendAll [second] (both.take 1)), one (.lookDone both),
    one (.unlockHeld both), one (.recheckNone both), one (.finishDirect [first] (both.drop 1)), one (.releaseLocked 1),
    one (.checkFast 1), one .unlock, one (.finishDirect [second] []), one (.releaseLocked 1), one (.checkFast 1),
    one .unlock, one .finishDone]

/-- The second reader finds the mutex taken by `releaseOutstanding`. -/
def leftToRelease (first second : GetReply) : List Event :=
  let one := Event.run 1
  let two := Event.run 2
  let chunks : List Chunk := [([first], false)]
  twoGets first second ++
  [.reader [first], one (.directLocked [first]), one (.take [first] [] []), one (.look [first] [] true),
    one (.sendAll [first] []), one (.lookDone chunks), one (.unlockHeld chunks), one (.recheckNone chunks),
    one (.finishDirect [first] []), one (.releaseLocked 1), .reader [second], two (.directBusy [second]),
    two (.hold [second]), two (.loadPending [second] none), two (.casPush [second] none), two .retryBusy,
    one (.checkFast 1), one .unlock, one .finishDone, two (.releaseLocked 1), two (.checkFast 1), two .unlock]

instance (s : State) : Decidable s.Idle :=
  decidable_of_iff (s.calls.flatten = [] ∧ s.mail = [] ∧ (s.flushCb = false ∧ s.flushTimeout = false) ∧
      s.migrateCb = false ∧ s.resumeTimeout = false)
    ⟨fun ⟨calls, mail, flush, migrate, resume⟩ => ⟨calls, mail, flush, migrate, resume⟩,
      fun ⟨calls, mail, flush, migrate, resume⟩ => ⟨calls, mail, flush, migrate, resume⟩⟩

theorem no_response_stranded_combined : ∃ s, Reach (restrict Minded (step ⟨true, 0, 0⟩)) start s ∧ s.Idle ∧
    s.wire = framesOf s.handed ∧ s.handed.length = 2 ∧ s.sendPending = [] := by
  obtain ⟨s, reached, idle, wire, both⟩ : ∃ s, Reach (restrict Minded (step ⟨true, 0, 0⟩)) start s ∧ s.Idle ∧
      s.wire = framesOf s.handed ∧ s.handed.length = 2 :=
    exists_reach (leftToSender ⟨1, 0, 0, none⟩ ⟨2, 0, 0, none⟩) (by decide +kernel)
  exact ⟨s, reached, idle, wire, both, no_response_stranded reached idle⟩

theorem response_left_to_release : ∃ s, Reach (step ⟨true, 0, 0⟩) start s ∧ s.Idle ∧ s.closing = false ∧
    s.sendPending = [⟨2, 0, 0, none⟩] :=
  exists_reach (leftToRelease ⟨1, 0, 0, none⟩ ⟨2, 0, 0, none⟩) (by decide +kernel)

end State

end FluxKV.Connection.Send
