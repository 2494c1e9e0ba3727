import FluxKV.Connection.Send.Handoff

/-! # The life of the count

The count is what is in flight. A connection that waits for zero has it taken there by the loop, which runs
`onDrained`, and a closed connection is deleted once, at zero. It is deleted at all only if nothing of it is left in
`sendPending_`, where a response has its request counted for ever.
-/

namespace FluxKV.Connection.Send

open Machine

variable {cfg : Config} {s : State} {e : Event}

namespace State

def onDrained (s : State) : State := if s.closing then s.deleteThis else s.scheduleMigrateCheck

/-- The decrement that ends in `onDrained`. -/
theorem next_drained {k : ℕ} (able : s.enabled cfg e)
    (drained : e = .run 0 (.subDelete k) ∨ e = .run 0 (.subCheck k)) :
    s.next e = ({ s with outstanding := 0 }.onDrained).setStack 0 (stackAt s.calls 0).tail := by
  rcases drained with rfl | rfl
  · obtain ⟨_, _, guard⟩ := enabled_run able
    obtain ⟨last, closing⟩ := of_decide_eq_true guard
    simp only [next, Move.effect, Move.new, List.nil_append, onDrained, closing, if_true, last, sub_self]
  · obtain ⟨_, _, guard⟩ := enabled_run able
    obtain ⟨last, opened⟩ := of_decide_eq_true guard
    simp only [next, Move.effect, Move.new, List.nil_append, onDrained, opened, last, sub_self]
    rfl

theorem in_flight_count (reached : Reach (step cfg) start s) :
    (0 ≤ s.outstanding ∧
      s.outstanding = (s.engine.length + s.sendPending.length + countsIn (s.calls.flatten ++ s.mail) : ℕ)) ∧
    (s.sendClosed = true ∨ s.drainWatch = true → 0 < s.outstanding → ∀ e t, s.step cfg e = some t → t.outstanding = 0 →
      (∃ k, e = .run 0 (.subDelete k) ∨ e = .run 0 (.subCheck k)) ∧
        t = ({ s with outstanding := 0 }.onDrained).setStack 0 (stackAt s.calls 0).tail) ∧
    (s.deleted ≤ 1 ∧ (0 < s.deleted → s.closing = true ∧ s.outstanding = 0)) ∧
    (Reach (restrict Minded (step cfg)) start s → s.closing = true → s.Idle → s.engine = [] → s.deleted = 1) := by
  have coherent := coherent_of_reach reached
  have closed := closed_of_reach reached
  have counted := coherent.balanced.outstanding_eq
  have once := closed.once
  refine ⟨⟨by omega, counted⟩, ?_, ⟨?_, ?_⟩, ?_⟩
  · intro marked pos e t taken zero
    obtain ⟨able, rfl⟩ := step_eq_some taken
    obtain ⟨k, drained⟩ := drained_by_loop coherent.sane able marked pos zero
    exact ⟨⟨k, drained⟩, next_drained able drained⟩
  · exact Nat.le_trans (Nat.le_add_right _ _) once
  · intro deleted
    exact ⟨closed.closing_of_pos (Nat.add_pos_left deleted _), closed.drained (.inl deleted)⟩
  · intro minded closing idle engine
    have none : s.calls.flatten ++ s.mail = [] := by rw [idle.calls, idle.mail, List.append_nil]
    have zero : s.outstanding = 0 := by
      rw [counted, (handed_of_reach minded).sendPending_of_idle idle, engine, none]
      rfl
    rcases closed.ended closing with one | ⟨_, pos⟩
    · rw [endings, none] at one
      exact one
    · exact absurd zero (Int.ne_of_gt pos)

/-- The client closes the connection with two requests in flight, and the loop answers both. -/
def answeredAfterClose (first second : GetReply) : List Event :=
  let loop := Event.run 0
  let answered (r : GetReply) : List Event :=
    [.answer r.id (.get r), .call (.mail (.respond (.get r))), loop (.respondClosed (.get r))]
  twoGets first second ++
  [.call .readEnd, loop (.destroy true), loop (.lockFor .close), loop .markClose, loop .unlock, loop .drainNone,
    loop .closeSocket, loop .leaveClose, loop (.closeKeep true)] ++
  answered first ++ [loop (.subMore 1)] ++ answered second ++ [loop (.subDelete 1)]

theorem in_flight_count_closed : ∃ s, Reach (restrict Minded (step ⟨true, 0, 0⟩)) start s ∧ s.closing = true ∧ s.Idle ∧
    s.engine = [] ∧ s.outstanding = 0 ∧ s.deleted = 1 := by
  obtain ⟨s, run, closing, idle, engine⟩ : ∃ s, exec (restrict Minded (step ⟨true, 0, 0⟩)) start
      (answeredAfterClose ⟨1, 0, 0, none⟩ ⟨2, 0, 0, none⟩) = some s ∧ s.closing = true ∧ s.Idle ∧ s.engine = [] :=
    exists_exec (by decide +kernel)
  obtain ⟨_, _, ⟨_, drained⟩, once⟩ := in_flight_count ⟨_, exec_of_restrict run⟩
  have deleted := once ⟨_, run⟩ closing idle engine
  exact ⟨s, ⟨_, run⟩, closing, idle, engine, (drained (deleted ▸ Nat.one_pos)).2, deleted⟩

/-- The last response of a connection that the client closes, left to a reader that is in `releaseOutstanding`. -/
def leftAtClose (first second : GetReply) : List Event :=
  let loop := Event.run 0
  let one := Event.run 1
  let two := Event.run 2
  let chunks : List Chunk := [([first], false)]
  twoGets first second ++
  [.reader [first], one (.directLocked [first]), one (.take [first] [] []), one (.look [first] [] true),
    one (.sendAll [first] []), one (.lookDone chunks), one (.unlockHeld chunks), one (.recheckNone chunks),
    one (.finishDirect [first] []), .call .readEnd, loop (.destroy true), loop (.lockFor .close), loop .markClose,
    loop .unlock, loop .drainNone, one (.releaseLocked 1), .reader [second], two (.directBusy [second]),
    two (.hold [second]), two (.loadPending [second] none), two (.casPush [second] none), two .retryBusy,
    one (.checkSlow 1), one .unlock, one (.load 1 3), one (.lowerCas 1 3), one (.lowerDone 2), one .finishDone,
    two (.releaseLocked 1), two (.checkSlow 1), two .unlock, two (.load 1 2), two (.lowerCas 1 2), two (.lowerDone 1),
    loop .closeSocket, loop .leaveClose, loop (.closeKeep true)]

theorem closed_connection_leaked : ∃ s, Reach (step ⟨true, 0, 0⟩) start s ∧ s.closing = true ∧ s.Idle ∧ s.engine = [] ∧
    s.outstanding = 1 ∧ s.deleted = 0 :=
  exists_reach (leftAtClose ⟨1, 0, 0, none⟩ ⟨2, 0, 0, none⟩) (by decide +kernel)

end State

end FluxKV.Connection.Send
