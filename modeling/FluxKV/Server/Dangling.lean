import FluxKV.Server.Mailboxes

/-! # Requests that outlive their loop

A request is answered on the loop its connection was on when it came in. A durable write holds that loop, and a
connection with requests in flight stays there while it is open. A GET does not hold the loop, so once its connection
is closed nothing does.
-/

namespace FluxKV.Server

open Machine

namespace State

variable {s t : State} {e : Event} {i l : ℕ}

/-- Every request in flight is answered on a loop that is not gone. -/
def Answerable (s : State) : Prop := ∀ r ∈ s.reqs, (s.loops r.evb).phase ≠ .joined

/-- A GET whose connection was closed. -/
def Orphan (s : State) (r : Request) : Prop := r.kind = .get ∧ ∃ c ∈ s.conns[r.conn]?, c.closing = true

instance (s : State) (r : Request) : Decidable (s.Orphan r) := inferInstanceAs (Decidable (_ ∧ _))

/-- A loop is stopped when no GET of a closed connection waits for it. -/
def StopsUnused (s : State) : Event → Prop
  | .join _ iot _ => ∀ r ∈ s.reqs, r.evb = iot → ¬ s.Orphan r
  | _ => True

instance (s : State) : (e : Event) → Decidable (s.StopsUnused e)
  | .join .. => inferInstanceAs (Decidable (∀ r ∈ s.reqs, _))
  | .pick .. | .reserve _ | .post _ | .run .. | .finishMigrate .. | .close .. | .get .. | .write .. | .answer ..
  | .grow .. | .shrink .. | .reap | .visit _ | .readPending .. | .readHolds _ | .unlock _ | .replan .. => .isTrue trivial

/-- A request comes in on a connection of the loop that answers it. -/
theorem mem_reqs_next (able : s.enabled e) {r : Request} (member : r ∈ (s.next e).reqs) :
    r ∈ s.reqs ∨ ∃ c ∈ s.conns, c.owner = some r.evb := by
  cases e with
  | run i mail =>
    obtain ⟨loop, work⟩ := mail
    cases work <;> exact .inl member
  | get i c iot | write i c iot =>
    rcases List.mem_append.mp member with before | now
    · exact .inl before
    · rw [List.mem_singleton.mp now]
      exact .inr ⟨c, List.mem_of_getElem? able.1, able.2.2.2⟩
  | answer i r' =>
    obtain ⟨kind, conn, evb⟩ := r'
    cases kind <;> exact .inl (List.mem_of_mem_eraseIdx member)
  | shrink n loads counts observed =>
    change r ∈ (s.shrink n loads counts observed).reqs at member
    unfold shrink at member
    dsimp only at member
    split at member <;> exact .inl member
  | visit sweep => exact .inl ((s.frame_visit sweep).reqs ▸ member)
  | readPending sweep n => exact .inl ((s.frame_readPending sweep n).reqs ▸ member)
  | readHolds sweep => exact .inl ((s.frame_readHolds sweep).reqs ▸ member)
  | replan sweep inFlight counts observed loads =>
    change r ∈ (s.replan sweep inFlight counts observed loads).reqs at member
    unfold replan at member
    dsimp only at member
    split_ifs at member <;> exact .inl member
  | _ => exact .inl member

/-- On a loop that was taken down only such GETs wait. -/
theorem Reaping.orphan (reaping : s.Reaping) {r : Request} (member : r ∈ s.reqs)
    (away : (s.loops r.evb).phase ≠ .running) : s.Orphan r := by
  obtain ⟨_, vacant, _, holds⟩ := reaping.reaped _ away
  constructor
  · cases kind : r.kind with
    | get => rfl
    | write =>
      have held := reaping.held r.evb
      have waits : 0 < s.writes r.evb := List.countP_pos_iff.mpr ⟨r, member, decide_eq_true ⟨kind, rfl⟩⟩
      omega
  · obtain ⟨c, here, closed | there⟩ := reaping.attached r member
    · exact ⟨c, here, closed⟩
    · exact absurd there (vacant c (List.mem_of_getElem? here))

/-- What is kept while loops are stopped only when they are not needed. -/
structure Attended (s : State) : Prop where
  ledger : s.Ledger
  reaping : s.Reaping
  answerable : s.Answerable

theorem Attended.initial (size : ℕ) : (initial size).Attended := ⟨.initial size, .initial size, by rintro _ ⟨⟩⟩

theorem Attended.step (attended : s.Attended) (unused : s.StopsUnused e) (taken : s.step e = some t) : t.Attended := by
  obtain ⟨ledger, reaping⟩ := Ledger.and_reaping_step ⟨attended.ledger, attended.reaping⟩ taken
  refine ⟨ledger, reaping, fun r member gone => ?_⟩
  obtain ⟨able, rfl⟩ := step_eq_some.mp taken
  rcases s.phase_next e r.evb with same | erased | ⟨_, sweep, rest, rfl⟩
  · rcases mem_reqs_next able member with before | ⟨c, inside, there⟩
    · exact attended.answerable r before (same ▸ gone)
    · have away : (s.loops r.evb).phase ≠ .running := by rw [← same, gone]; decide
      exact (attended.reaping.reaped _ away).2.1 c inside there
  · rw [erased] at gone
    cases gone
  · have away : ((s.next (.join sweep r.evb rest)).loops r.evb).phase ≠ .running := by rw [gone]; decide
    exact unused r member rfl (reaping.orphan member away)

/-- No request is left without its loop exactly when no loop is stopped that a GET of a closed connection waits for. -/
theorem answerable_iff_stops_unused {size : ℕ} {es : List Event} (run : exec step (initial size) es = some s) :
    Along step Answerable (initial size) es ↔ exec (restrict StopsUnused step) (initial size) es = some s := by
  refine along_iff_restrict (Attended.initial size) Attended.step Attended.answerable
    (fun {s e t} before used taken answerable => ?_) run
  cases e with
  | join sweep iot rest =>
    obtain ⟨able, rfl⟩ := step_eq_some.mp taken
    simp only [StopsUnused, not_forall, not_not] at used
    obtain ⟨r, member, rfl, _⟩ := used
    exact answerable r member (phase_join ..)
  | _ => exact used trivial

end State

/-- A durable write is answered and its connection closed before the loop is stopped. -/
theorem answerable_iff_stops_unused_answered : ∃ es s, exec State.step (State.initial 2) es = some s ∧
    (s.loops 0).phase = .joined ∧ Along State.step State.Answerable (State.initial 2) es := by
  let es := acceptTwo ++ [.write 0 ⟨some 0, false, none, false⟩ 0, .answer 0 ⟨.write, 0, 0⟩,
    .close 0 ⟨some 0, false, none, false⟩, .shrink 1 (fun l => l) (fun _ => 0) (fun _ _ _ => 0)] ++
      firstTick ++ secondTick
  obtain ⟨s, run, gone⟩ : ∃ s, exec (restrict State.StopsUnused State.step) (State.initial 2) es = some s ∧
      (s.loops 0).phase = .joined := exists_exec (by decide +kernel)
  exact ⟨es, s, exec_of_restrict run, gone, (State.answerable_iff_stops_unused (exec_of_restrict run)).mpr run⟩

/-- The client asks for a key and closes the connection. The loop has nothing left, and is stopped while the GET waits
to be read. -/
theorem get_outlives_loop : ∃ es s, exec State.step (State.initial 2) es = some s ∧ s.reqs = [⟨.get, 0, 0⟩] ∧
    (s.loops 0).phase = .joined :=
  ⟨acceptTwo ++ [.get 0 ⟨some 0, false, none, false⟩ 0, .close 0 ⟨some 0, false, none, false⟩,
    .shrink 1 (fun l => l) (fun _ => 0) (fun _ _ _ => 0)] ++ firstTick ++ secondTick, exists_exec (by decide +kernel)⟩

end FluxKV.Server
