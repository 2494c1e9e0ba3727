import FluxKV.Connection.Serve
import FluxKV.Machine.Run

/-! # Framing across chunks, pauses and migrations

A connection on its loop: chunks arrive, the parse loop takes requests until it needs more input, a SET
finds no write token or no room in the queue, or the connection closes. Reading then stops and is taken
up again by a timer or, after a migration, on another loop. Whatever happens in between, the requests
taken off are the frames of the stream received, in order, and all of them whenever the loop has run
out of reasons to stop.
-/

namespace FluxKV.Connection

open Protocol Machine

/-- Where the loop thread is: outside the parse loop, about to call `parseAndDispatch`, or past a call
that returned false. -/
inductive LoopPhase where
  | idle
  | parsing
  | leaving
deriving DecidableEq, Repr

/-- A connection as the loop thread parses it. `reading` says that the read callback is installed and
`attached` that the socket is on a loop. `received` and `taken` record the stream and its requests. -/
structure Session where
  readBuf : List Bytes
  closing : Bool
  stageFull : Bool
  readPaused : Bool
  migrating : Bool
  reading : Bool
  attached : Bool
  phase : LoopPhase
  received : Bytes
  taken : List Bytes
deriving DecidableEq, Repr

namespace Session

/-- After `start`. -/
def start : Session := ⟨[], false, false, false, false, true, true, .idle, [], []⟩

/-- What happens to a connection. A chunk goes into the last buffer of the chain or a fresh one, and a call
of `parseAndDispatch` may find the write queue full when it stages a SET. -/
inductive Event : Type 1 where
  | read (chunk : Bytes) (fresh : Bool)
  | parse {σ : Type} (cache : DocCache σ) (env : Env σ) (queueFull : Bool)
  | leave
  | resumeAfterQueue (room : Bool)
  | migrateTo
  | detach
  | finishAttach
  | destroy

/-- `IOBufQueue::postallocate`. -/
def postallocate (readBuf : List Bytes) (chunk : Bytes) (fresh : Bool) : List Bytes :=
  match fresh, readBuf.getLast? with
  | false, some last => readBuf.dropLast ++ [last ++ chunk]
  | _, _ => readBuf ++ [chunk]

/-- `handleSet` was refused by `StageWrite`, in the mode that answers at once. -/
def refused (taken : List Taken) (queueFull : Bool) : Bool :=
  queueFull && taken.any fun t =>
    match t.route with
    | .dispatched call _ => call.op = .set
    | _ => false

def destroy (s : Session) : Session :=
  if s.closing then s
  else { s with closing := true, readPaused := false, migrating := false, reading := false }

def pauseForQueue (s : Session) : Session :=
  if s.closing ∨ s.migrating ∨ s.readPaused ∨ s.attached = false then { s with stageFull := false }
  else { s with stageFull := false, readPaused := true, reading := false }

def resumeAfterQueue (s : Session) (room : Bool) : Session :=
  if s.readPaused = false then s
  else if s.closing ∨ s.migrating then { s with readPaused := false }
  else if room = false then s
  else { s with readPaused := false, reading := true, phase := .parsing }

/-- After one call of `parseAndDispatch` from the parse loop. -/
def afterCall {σ : Type} (s : Session) (p : Parsed σ) (queueFull : Bool) : Session :=
  let next := { s with
    readBuf := p.readBuf
    stageFull := p.stageFull || refused p.taken queueFull
    phase := if p.again then .parsing else .leaving
    taken := s.taken ++ p.taken.map Taken.frame }
  if p.closing then next.destroy else next

/-- When an event can happen. A detached connection has no callbacks until it is attached again. -/
def enabled (s : Session) : Event → Bool
  | .read .. => s.phase = .idle ∧ s.reading ∧ s.attached
  | .parse .. => s.phase = .parsing ∧ s.closing = false ∧ s.stageFull = false
  | .leave => s.phase = .leaving ∨ s.phase = .parsing ∧ (s.closing ∨ s.stageFull)
  | .resumeAfterQueue _ => s.phase = .idle ∧ s.attached
  | .migrateTo => s.phase = .idle ∧ s.attached ∧ s.closing = false ∧ s.migrating = false
  | .detach => s.phase = .idle ∧ s.attached ∧ s.closing = false ∧ s.migrating
  | .finishAttach => s.attached = false
  | .destroy => s.attached

def next (s : Session) : Event → Session
  | .read chunk fresh =>
    { s with
      readBuf := postallocate s.readBuf chunk fresh
      received := s.received ++ chunk
      phase := .parsing }
  | .parse cache env queueFull => s.afterCall (cache.parseAndDispatch env s.readBuf) queueFull
  | .leave => if s.stageFull then { s.pauseForQueue with phase := .idle } else { s with phase := .idle }
  | .resumeAfterQueue room => s.resumeAfterQueue room
  | .migrateTo => { s with migrating := true, reading := false }
  | .detach => { s with readPaused := false, attached := false }
  | .finishAttach => { s with attached := true, migrating := false, reading := true, phase := .parsing }
  | .destroy => s.destroy

def step (s : Session) (e : Event) : Option Session := if s.enabled e then some (s.next e) else none

theorem step_eq_some {s t : Session} {e : Event} (taken : step s e = some t) :
    s.enabled e ∧ s.next e = t :=
  ite_some_eq_some.mp taken

/-- What the parse loop keeps up. -/
structure Framed (s : Session) : Prop where
  areFrames : ∀ frame ∈ s.taken, requestFramer.IsFrame frame
  stream : s.taken.flatten <+: s.received
  split : s.closing = false → s.received = s.taken.flatten ++ s.readBuf.flatten
  /-- The loop is left for want of input, for want of room, or because the connection closed. -/
  left : s.phase = .leaving → s.closing = false → s.stageFull = false → requestFramer.cut s.readBuf.flatten = .more
  settled : s.phase = .idle → s.closing = false → s.readPaused = false → s.migrating = false →
    requestFramer.cut s.readBuf.flatten = .more
  onLoop : s.attached = false → s.migrating = true ∧ s.phase = .idle ∧ s.closing = false
  cleared : s.phase = .idle → s.stageFull = false

theorem Framed.start : Framed start where
  areFrames _ member := (List.not_mem_nil member).elim
  stream := List.nil_prefix
  split _ := rfl
  left absent := nomatch absent
  settled _ _ _ _ := rfl
  onLoop absent := nomatch absent
  cleared _ := rfl

variable {s t : Session}

theorem postallocate_flatten (readBuf : List Bytes) (chunk : Bytes) (fresh : Bool) :
    (postallocate readBuf chunk fresh).flatten = readBuf.flatten ++ chunk := by
  unfold postallocate
  split
  · next last found =>
    obtain ⟨front, rfl⟩ := List.getLast?_eq_some_iff.mp found
    simp
  · simp

theorem Framed.destroy (framed : s.Framed) (onLoop : s.attached = true) : s.destroy.Framed := by
  unfold Session.destroy
  split
  · exact framed
  · exact
      { areFrames := framed.areFrames
        stream := framed.stream
        split := fun absent => nomatch absent
        left := fun _ absent => nomatch absent
        settled := fun _ absent => nomatch absent
        onLoop := fun away => absurd away (by simp [onLoop])
        cleared := framed.cleared }

theorem Framed.afterCall {σ : Type} {p : Parsed σ} (framed : s.Framed) (queueFull : Bool)
    (able : s.phase = .parsing ∧ s.closing = false ∧ s.stageFull = false) (spec : DocCache.CallSpec s.readBuf p) :
    (s.afterCall p queueFull).Framed := by
  have onLoop : s.attached ≠ false := fun away => nomatch able.1.symm.trans (framed.onLoop away).2.1
  have busy : (if p.again then LoopPhase.parsing else .leaving) ≠ .idle := by split <;> exact LoopPhase.noConfusion
  simp only [Session.afterCall]
  split
  · next closed =>
    simp only [Session.destroy, able.2.1, spec.closed closed, List.map_nil, List.append_nil, Bool.false_eq_true,
      if_false]
    exact
      { areFrames := framed.areFrames
        stream := framed.stream
        split := fun absent => nomatch absent
        left := fun _ absent => nomatch absent
        settled := fun _ absent => nomatch absent
        onLoop := fun away => absurd away onLoop
        cleared := fun idle => absurd idle busy }
  · next opened =>
    rw [Bool.not_eq_true] at opened
    have split : s.received = (s.taken ++ p.taken.map Taken.frame).flatten ++ p.readBuf.flatten := by
      rw [List.flatten_append, List.append_assoc, spec.split opened, framed.split able.2.1]
    refine
      { areFrames := fun frame member => ?_
        stream := split ▸ List.prefix_append _ _
        split := fun _ => split
        left := fun leaving _ roomy => spec.stopped ?_ opened (Bool.or_eq_false_iff.mp roomy).1
        settled := fun idle => absurd idle busy
        onLoop := fun away => absurd away onLoop
        cleared := fun idle => absurd idle busy }
    · rcases List.mem_append.mp member with member | member
      · exact framed.areFrames frame member
      · obtain ⟨t, inCall, rfl⟩ := List.mem_map.mp member
        exact spec.areFrames t inCall
    · cases again : p.again with
      | true => simp [again] at leaving
      | false => rfl

theorem Framed.leave (framed : s.Framed) (able : s.phase ≠ .idle)
    (stopped : s.closing = false → s.stageFull = false → requestFramer.cut s.readBuf.flatten = .more) :
    (if s.stageFull then { s.pauseForQueue with phase := .idle } else { s with phase := .idle }).Framed := by
  have onLoop : s.attached ≠ false := fun away => absurd (framed.onLoop away).2.1 able
  split
  · unfold Session.pauseForQueue
    split
    · next busy =>
      exact { framed with
        left := fun absent => nomatch absent
        settled := fun _ opened unpaused still => by simp_all
        onLoop := fun away => absurd away onLoop
        cleared := fun _ => rfl }
    · exact { framed with
        left := fun absent => nomatch absent
        settled := fun _ _ absent => nomatch absent
        onLoop := fun away => absurd away onLoop
        cleared := fun _ => rfl }
  · next roomy =>
    rw [Bool.not_eq_true] at roomy
    exact { framed with
      left := fun absent => nomatch absent
      settled := fun _ opened _ _ => stopped opened roomy
      onLoop := fun away => absurd away onLoop
      cleared := fun _ => roomy }

theorem Framed.resumeAfterQueue (framed : s.Framed) (room : Bool) (onLoop : s.attached = true) :
    (s.resumeAfterQueue room).Framed := by
  unfold Session.resumeAfterQueue
  split
  · exact framed
  split
  · next busy =>
    exact { framed with settled := fun _ opened _ still => by simp_all }
  split
  · exact framed
  · exact { framed with
      left := fun absent => nomatch absent
      settled := fun absent => nomatch absent
      onLoop := fun away => nomatch onLoop.symm.trans away
      cleared := fun absent => nomatch absent }

theorem Framed.step {e : Event} (framed : s.Framed) (taken : step s e = some t) : t.Framed := by
  obtain ⟨able, rfl⟩ := step_eq_some taken
  cases e with
  | read chunk fresh =>
    have able := of_decide_eq_true able
    exact
      { areFrames := framed.areFrames
        stream := framed.stream.trans (List.prefix_append _ _)
        split := fun opened => by
          simp only [Session.next, postallocate_flatten]
          rw [framed.split opened, List.append_assoc]
        left := fun absent => nomatch absent
        settled := fun absent => nomatch absent
        onLoop := fun away => nomatch able.2.2.symm.trans away
        cleared := fun absent => nomatch absent }
  | parse cache env queueFull =>
    exact framed.afterCall queueFull (of_decide_eq_true able) (cache.parseAndDispatch_spec env)
  | leave =>
    rcases of_decide_eq_true able with leaving | ⟨parsing, stop⟩
    · exact framed.leave (by rw [leaving]; exact LoopPhase.noConfusion) (framed.left leaving)
    · refine framed.leave (by rw [parsing]; exact LoopPhase.noConfusion) fun opened roomy => ?_
      rw [opened, roomy] at stop
      exact nomatch stop
  | resumeAfterQueue room => exact framed.resumeAfterQueue room (of_decide_eq_true able).2
  | migrateTo =>
    have able := of_decide_eq_true able
    exact { framed with
      settled := fun _ _ _ absent => nomatch absent
      onLoop := fun away => nomatch able.2.1.symm.trans away }
  | detach =>
    have able := of_decide_eq_true able
    exact { framed with
      settled := fun _ _ _ still => nomatch able.2.2.2.symm.trans still
      onLoop := fun _ => ⟨able.2.2.2, able.1, able.2.2.1⟩ }
  | finishAttach =>
    exact { framed with
      left := fun absent => nomatch absent
      settled := fun absent => nomatch absent
      onLoop := fun absent => nomatch absent
      cleared := fun absent => nomatch absent }
  | destroy => exact framed.destroy able

theorem frozen_of_closing {e : Event} (closed : s.closing = true) (taken : step s e = some t) :
    t.closing = true ∧ t.taken = s.taken := by
  obtain ⟨able, rfl⟩ := step_eq_some taken
  cases e with
  | parse cache env queueFull => exact nomatch closed.symm.trans (of_decide_eq_true able).2.1
  | leave =>
    simp only [Session.next, Session.pauseForQueue, closed, true_or, if_true]
    split <;> exact ⟨rfl, rfl⟩
  | resumeAfterQueue room =>
    simp only [Session.next, Session.resumeAfterQueue, closed, true_or, if_true]
    split
    · exact ⟨closed, rfl⟩
    · exact ⟨rfl, rfl⟩
  | destroy => simp only [Session.next, Session.destroy, closed, if_true, and_self]
  | _ => exact ⟨closed, rfl⟩

/-- The requests taken off are at all times the first frames of the stream received, in order. They are all
of them, with no header that closes the connection among what follows, whenever the loop is outside the
parse loop and the connection neither closed, paused nor migrating. After it closed none is taken. -/
theorem taken_frames_of_stream (reached : Reach step start s) :
    s.taken <+: (requestFramer.frames s.received).1 ∧
      (s.phase = .idle → s.closing = false → s.readPaused = false → s.migrating = false →
        requestFramer.frames s.received = (s.taken, false)) ∧
      (s.closing = true → ∀ t, Reach step s t → t.taken = s.taken) := by
  have framed : s.Framed := Reach.invariant Framed.start (fun before taken => before.step taken) reached
  refine ⟨?_, fun idle opened unpaused still => ?_, fun closed t later => ?_⟩
  · obtain ⟨rest, split⟩ := framed.stream
    rw [← split, Framer.frames_flatten_append framed.areFrames]
    exact List.prefix_append _ _
  · rw [framed.split opened, Framer.frames_flatten_append framed.areFrames,
      Framer.frames_of_more (framed.settled idle opened unpaused still), List.append_nil]
  · exact (Reach.invariant (P := fun t => t.closing = true ∧ t.taken = s.taken) ⟨closed, rfl⟩
      (fun before taken => (frozen_of_closing before.1 taken).imp_right (·.trans before.2)) later).2

/-- A lookup that finds nothing. -/
def noCache : DocCache Unit := ⟨fun _ _ => ((), none), fun _ _ _ => ((), .miss)⟩

/-- Two SETs in three chunks, the first cut inside its header. The first waits for a write token and a
resume, the second is parsed on another loop. -/
def interrupted : List Event :=
  let call (token : Bool) : Event := .parse noCache ⟨[], token, none, [], 4096⟩ false
  [.read ((setHeader 1 0 1).take 10) true, call true, .leave, .read ((setHeader 1 0 1).drop 10) false, call true,
    .leave, .read (7 :: setHeader 1 0 0) true, call false, .leave, .migrateTo, .resumeAfterQueue true, .detach,
    .finishAttach, call true, call true, call true, .leave]

theorem taken_frames_interrupted : ∃ s, Reach step start s ∧ s.taken = [setHeader 1 0 1 ++ [7], setHeader 1 0 0] ∧
    requestFramer.frames s.received = (s.taken, false) := by
  obtain ⟨s, reached, taken, idle, opened, unpaused, still⟩ : ∃ s, Reach step start s ∧
      s.taken = [setHeader 1 0 1 ++ [7], setHeader 1 0 0] ∧ s.phase = .idle ∧ s.closing = false ∧ s.readPaused = false ∧
      s.migrating = false := exists_reach interrupted (by decide +kernel)
  exact ⟨s, reached, taken, (taken_frames_of_stream reached).2.1 idle opened unpaused still⟩

end Session

end FluxKV.Connection
