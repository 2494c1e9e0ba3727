import FluxKV.Server.Retirement

/-! # Closures in the mailboxes of loops

A closure is posted to a loop that runs, with reservations. `Reap` does not look at the mailbox of the loop it stops:
a plan that has not run by then is dropped, and its reservations with it.
-/

namespace FluxKV.Server

open Machine

namespace State

variable {s t : State} {e : Event} {i l : ℕ}

private theorem phase_retire (s : State) (retiring : List ℕ) (l : ℕ) :
    ((s.retire retiring).loops l).phase = (s.loops l).phase := by
  simp only [retire]
  split <;> rfl

/-- A loop leaves `ioThreads_` at the end of a look of `Reap`, and is gone when `Reap` has joined it. -/
theorem phase_next (s : State) (e : Event) (l : ℕ) : ((s.next e).loops l).phase = (s.loops l).phase ∨
    ((s.next e).loops l).phase = .erased ∨
    ((s.next e).loops l).phase = .joined ∧ ∃ sweep rest, e = .join sweep l rest := by
  cases e with
  | run i mail =>
    obtain ⟨loop, work⟩ := mail
    cases work <;> exact .inl rfl
  | answer i r =>
    obtain ⟨kind, conn, evb⟩ := r
    cases kind with
    | get => exact .inl rfl
    | write => exact .inl (apply_setLoop IOThread.phase (by rfl) l)
  | write i c iot => exact .inl (apply_setLoop IOThread.phase (by rfl) l)
  | shrink n loads counts observed =>
    left
    show ((s.shrink n loads counts observed).loops l).phase = _
    unfold shrink
    dsimp only
    split
    · rfl
    · exact phase_retire s _ l
  | visit sweep =>
    left
    show ((s.visit sweep).loops l).phase = _
    unfold visit
    dsimp only
    split_ifs <;> rfl
  | readPending sweep n =>
    left
    show ((s.readPending sweep n).loops l).phase = _
    unfold readPending
    dsimp only
    split
    · exact apply_setLoop IOThread.phase (by rfl) l
    · rfl
  | readHolds sweep =>
    show ((s.readHolds sweep).loops l).phase = _ ∨ ((s.readHolds sweep).loops l).phase = _ ∨ _
    unfold readHolds
    dsimp only
    split_ifs
    · exact .inl (apply_setLoop IOThread.phase (by rfl) l)
    · exact .inl (apply_setLoop IOThread.phase (by rfl) l)
    · exact (forall_setLoop (P := fun l loop => loop.phase = (s.loops l).phase ∨ loop.phase = .erased) (.inr rfl)
        (fun _ _ => .inl rfl) l).imp_right .inl
  | join sweep iot rest =>
    exact forall_setLoop (P := fun l loop => loop.phase = (s.loops l).phase ∨ loop.phase = .erased ∨
      loop.phase = .joined ∧ ∃ sweep' rest', Event.join sweep iot rest = .join sweep' l rest')
      (.inr (.inr ⟨rfl, sweep, rest, rfl⟩)) (fun _ _ => .inl rfl) l
  | replan sweep inFlight counts observed loads =>
    left
    show ((s.replan sweep inFlight counts observed loads).loops l).phase = _
    unfold replan
    dsimp only
    split_ifs <;> rfl
  | _ => exact .inl rfl

theorem phase_join (s : State) (sweep : Sweep) (iot : ℕ) (rest : List ℕ) :
    ((s.next (.join sweep iot rest)).loops iot).phase = .joined := by
  show (Function.update s.loops iot _ iot).phase = _
  rw [Function.update_self]

/-- A loop that was taken down does not come back. -/
theorem away_next (away : (s.loops l).phase ≠ .running) : ((s.next e).loops l).phase ≠ .running := by
  rcases s.phase_next e l with same | erased | ⟨joined, _⟩
  · rwa [same]
  · rw [erased]
    decide
  · rw [joined]
    decide

/-! ## What is in a mailbox -/

/-- A loop that is reserved runs. -/
theorem Reaping.running (reaping : s.Reaping) (ledger : s.Ledger) (outstanding : l ∈ s.reserved) :
    (s.loops l).phase = .running := by
  by_contra away
  have pending := ledger.pending_pos outstanding
  exact pending.ne (reaping.reaped l away).2.2.1.symm

/-- The plans that are posted are not empty and are for loops that run. -/
private theorem mem_mail_postMigrations {plans : List (ℕ × List ℕ)}
    (running : ∀ plan ∈ plans, (s.loops plan.1).phase = .running) {m : Mail}
    (member : m ∈ (s.postMigrations plans).mail) : m ∈ s.mail ∨ m.reserved ≠ [] ∧ (s.loops m.loop).phase = .running := by
  rcases List.mem_append.mp member with before | now
  · exact .inl before
  · obtain ⟨plan, chosen, rfl⟩ := List.mem_map.mp now
    obtain ⟨inside, moves⟩ := List.mem_filter.mp chosen
    exact .inr ⟨of_decide_eq_true moves, running plan inside⟩

private theorem running_of_mem_rebalance {loads : ℕ → ℤ} {plan : ℕ × List ℕ} (member : plan ∈ rebalance s.live loads) :
    (s.loops plan.1).phase = .running := by
  unfold rebalance at member
  split at member
  · cases member
  · obtain ⟨⟨donor, position⟩, inside, rfl⟩ := List.mem_map.mp member
    exact (mem_live.mp (List.fst_mem_of_mem_zipIdx inside)).2.1

/-- A closure that a step posts brings a reservation and finds its loop running. -/
theorem Reaping.mem_mail_next (reaping : s.Reaping) (ledger : s.Ledger) (able : s.enabled e) {m : Mail}
    (member : m ∈ (s.next e).mail) : m ∈ s.mail ∨ m.reserved ≠ [] ∧ (s.loops m.loop).phase = .running := by
  cases e with
  | post iot =>
    rcases List.mem_append.mp member with before | now
    · exact .inl before
    · rw [List.mem_singleton.mp now]
      refine .inr ⟨List.cons_ne_nil _ _, reaping.running ledger (List.mem_append_left _ (List.mem_append_left _ ?_))⟩
      have able : s.acceptor = .posting iot := able
      rw [able]
      exact List.mem_cons_self
  | run i mail =>
    obtain ⟨loop, work⟩ := mail
    cases work <;> exact .inl (List.mem_of_mem_eraseIdx member)
  | finishMigrate i c target =>
    rcases List.mem_append.mp member with before | now
    · exact .inl before
    · obtain ⟨here, _, _, _, moves, _⟩ := able
      rw [List.mem_singleton.mp now]
      refine .inr ⟨List.cons_ne_nil _ _, reaping.running ledger (List.mem_append_right _ ?_)⟩
      exact List.mem_flatMap.mpr ⟨c, List.mem_of_getElem? here, Option.mem_toList.mpr moves⟩
  | answer i r =>
    obtain ⟨kind, conn, evb⟩ := r
    cases kind <;> exact .inl member
  | grow n loads =>
    exact mem_mail_postMigrations (s := { s with size := s.size + n }) (fun _ => running_of_mem_rebalance) member
  | shrink n loads counts observed =>
    change m ∈ (s.shrink n loads counts observed).mail at member
    unfold State.shrink at member
    dsimp only at member
    split at member
    · exact .inl member
    · rw [← phase_retire]
      refine mem_mail_postMigrations (fun plan inside => ?_) member
      obtain ⟨donor, retires, rfl⟩ := List.mem_map.mp inside
      have live := (List.mem_insertionSort _).mp (List.mem_of_mem_take retires)
      exact (phase_retire ..).trans (mem_live.mp live).2.1
  | visit sweep => exact .inl ((s.frame_visit sweep).mail ▸ member)
  | readPending sweep n => exact .inl ((s.frame_readPending sweep n).mail ▸ member)
  | readHolds sweep => exact .inl ((s.frame_readHolds sweep).mail ▸ member)
  | replan sweep inFlight counts observed loads =>
    have sorted := reaping.swept
    rw [Swept, able.1] at sorted
    change m ∈ (s.replan sweep inFlight counts observed loads).mail at member
    unfold State.replan at member
    dsimp only at member
    split_ifs at member
    · exact .inl member
    · exact mem_mail_postMigrations (fun _ => running_of_mem_rebalance) member
    · refine mem_mail_postMigrations (fun plan inside => ?_) member
      obtain ⟨donor, stuck, rfl⟩ := List.mem_map.mp inside
      exact sorted.stuck donor stuck
  | _ => exact .inl member

/-! ## Reservations that are lost -/

/-- The reservations whose holder can still use them or give them back: the accepting thread, a closure of a loop that
is not gone, or a connection on such a loop. -/
def outstanding (s : State) : List ℕ :=
  s.acceptor.reserved ++ (s.mail.filter fun m => (s.loops m.loop).phase ≠ .joined).flatMap Mail.reserved ++
    (s.conns.filter fun c => c.owner.all fun l => (s.loops l).phase ≠ .joined).flatMap Connection.reserved

/-- What a loop counts as pending will be used or given back. -/
def Accounted (s : State) : Prop := ∀ l, (s.loops l).pending = s.outstanding.count l

/-- A loop is stopped with an empty mailbox. -/
def StopsEmpty (s : State) : Event → Prop
  | .join _ iot _ => ∀ m ∈ s.mail, m.loop ≠ iot
  | _ => True

instance (s : State) (e : Event) : Decidable (s.StopsEmpty e) := by
  unfold StopsEmpty
  split <;> infer_instance

/-- No closure is left in the mailbox of a loop that is gone. -/
structure Delivered (s : State) : Prop where
  ledger : s.Ledger
  reaping : s.Reaping
  filled : ∀ m ∈ s.mail, m.reserved ≠ []
  present : ∀ m ∈ s.mail, (s.loops m.loop).phase ≠ .joined

theorem Delivered.initial (size : ℕ) : (initial size).Delivered :=
  ⟨.initial size, .initial size, by rintro _ ⟨⟩, by rintro _ ⟨⟩⟩

theorem Delivered.step (delivered : s.Delivered) (empty : s.StopsEmpty e) (taken : s.step e = some t) : t.Delivered := by
  obtain ⟨able, rfl⟩ := step_eq_some.mp taken
  obtain ⟨ledger, reaping, filled, present⟩ := delivered
  refine ⟨ledger.next able, reaping.next ledger able, fun m member => ?_, fun m member gone => ?_⟩
  · rcases reaping.mem_mail_next ledger able member with before | ⟨brings, _⟩
    · exact filled m before
    · exact brings
  · rcases s.phase_next e m.loop with same | erased | ⟨_, sweep, rest, rfl⟩
    · rcases reaping.mem_mail_next ledger able member with before | ⟨_, running⟩
      · exact present m before (same ▸ gone)
      · rw [same, running] at gone
        cases gone
    · rw [erased] at gone
      cases gone
    · exact empty m member rfl

theorem Delivered.accounted (delivered : s.Delivered) : s.Accounted := by
  have mail : (s.mail.filter fun m => (s.loops m.loop).phase ≠ .joined) = s.mail :=
    List.filter_eq_self.mpr fun m member => decide_eq_true (delivered.present m member)
  have conns : (s.conns.filter fun c => c.owner.all fun l => (s.loops l).phase ≠ .joined) = s.conns := by
    refine List.filter_eq_self.mpr fun c member => ?_
    cases owner : c.owner with
    | none => rfl
    | some l =>
      refine decide_eq_true fun gone => ?_
      have away : (s.loops l).phase ≠ .running := by rw [gone]; decide
      exact (delivered.reaping.reaped l away).2.1 c member owner
  intro l
  rw [outstanding, mail, conns]
  exact delivered.ledger.counted l

/-- The reservations of a closure in the mailbox of a loop that is gone stay pending. -/
theorem Ledger.not_accounted (ledger : s.Ledger) {m : Mail} (member : m ∈ s.mail) (brings : m.reserved ≠ [])
    (gone : (s.loops m.loop).phase = .joined) : ¬ s.Accounted := by
  intro accounted
  obtain ⟨l, reserves⟩ := List.exists_mem_of_ne_nil _ brings
  have mail := count_flatMap_filter Mail.reserved (fun m => (s.loops m.loop).phase ≠ .joined) s.mail l
  have conns := count_flatMap_filter Connection.reserved
    (fun c => c.owner.all fun l => (s.loops l).phase ≠ .joined) s.conns l
  have left : 0 < ((s.mail.filter fun m =>
      !decide ((s.loops m.loop).phase ≠ .joined)).flatMap Mail.reserved).count l := by
    refine List.count_pos_iff.mpr (List.mem_flatMap.mpr ⟨m, List.mem_filter.mpr ⟨member, ?_⟩, reserves⟩)
    simp only [gone, ne_eq, not_true_eq_false, decide_false, Bool.not_false]
  have same := (ledger.counted l).symm.trans (accounted l)
  rw [count_reserved, outstanding, List.count_append, List.count_append] at same
  omega

/-- Every reservation is used or given back exactly once, as long as no loop is stopped before it has run what is in
its mailbox. A loop that was taken down had nothing left, and gets nothing later. -/
theorem accounted_iff_stops_empty {size : ℕ} {es : List Event} (run : exec step (initial size) es = some s) :
    (∀ l, 0 ≤ (s.loops l).pending ∧ (s.loops l).pending = s.reserved.count l) ∧
    (∀ l, (s.loops l).phase ≠ .running → ∀ later t, exec step s later = some t → (t.loops l).phase ≠ .running ∧
      t.Vacant l ∧ (t.loops l).pending = 0 ∧ (t.loops l).holds = 0) ∧
    (Along step Accounted (initial size) es ↔ exec (restrict StopsEmpty step) (initial size) es = some s) := by
  have now : s.Ledger ∧ s.Reaping := Reach.invariant (P := fun s => s.Ledger ∧ s.Reaping)
    ⟨.initial size, .initial size⟩ Ledger.and_reaping_step ⟨es, run⟩
  refine ⟨fun l => ?_, fun l away later t run => ?_, ?_⟩
  · have counted := now.1.counted l
    exact ⟨by omega, counted⟩
  · have after : (t.Ledger ∧ t.Reaping) ∧ (t.loops l).phase ≠ .running := by
      refine Reach.invariant (P := fun s => (s.Ledger ∧ s.Reaping) ∧ (s.loops l).phase ≠ .running) ⟨now, away⟩
        (fun before taken => ⟨Ledger.and_reaping_step before.1 taken, ?_⟩) ⟨later, run⟩
      obtain ⟨_, rfl⟩ := step_eq_some.mp taken
      exact away_next before.2
    exact ⟨after.2, (after.1.2.reaped l after.2).2⟩
  · refine along_iff_restrict (Delivered.initial size) Delivered.step Delivered.accounted
      (fun {s e t} before left taken => ?_) run
    -- the only event that may lose a closure is the end of its loop
    cases e with
    | join sweep iot rest =>
      obtain ⟨able, rfl⟩ := step_eq_some.mp taken
      simp only [StopsEmpty, not_forall, not_not] at left
      obtain ⟨m, member, rfl⟩ := left
      exact (before.ledger.next able).not_accounted member (before.filled m member)
        (phase_join ..)
    | _ => exact (left trivial).elim

end State

/-! ## Two loops, of which one retires -/

/-- A connection arrives on each of two loops. -/
def acceptTwo : List Event :=
  [.pick (fun _ => 0) 0, .reserve 0, .post 0, .run 0 ⟨0, .start⟩,
    .pick (fun l => if l = 0 then 1 else 0) 1, .reserve 1, .post 1, .run 0 ⟨1, .start⟩]

/-- `Reap` sees the first loop empty, and does not plan. -/
def firstTick : List Event :=
  [.reap, .visit {}, .readPending {} 0, .readHolds {}, .visit ⟨1, [], [], []⟩, .unlock ⟨2, [1], [], []⟩,
    .replan ⟨2, [1], [], []⟩ true (fun _ => 0) (fun _ _ _ => 0) (fun _ => 0)]

/-- `Reap` sees it empty again and stops it. -/
def secondTick : List Event :=
  [.reap, .visit {}, .readPending {} 0, .readHolds {}, .visit ⟨1, [], [], [0]⟩, .unlock ⟨2, [1], [], [0]⟩,
    .join ⟨2, [1], [], [0]⟩ 0 []]

/-- The connection of the first loop moves before it is stopped. -/
theorem accounted_iff_stops_empty_moved : ∃ es s, exec State.step (State.initial 2) es = some s ∧
    (s.loops 0).phase = .joined ∧ s.Vacant 0 ∧ Along State.step State.Accounted (State.initial 2) es := by
  let es := acceptTwo ++ [.shrink 1 (fun _ => 1) (fun _ => 1) (fun _ _ _ => 1), .run 0 ⟨0, .migrate [1]⟩,
    .finishMigrate 0 ⟨some 0, true, some 1, false⟩ 1, .run 0 ⟨1, .finishAttach 0⟩] ++ firstTick ++ secondTick
  obtain ⟨s, run, gone⟩ : ∃ s, exec (restrict State.StopsEmpty State.step) (State.initial 2) es = some s ∧
      (s.loops 0).phase = .joined := exists_exec (by decide +kernel)
  obtain ⟨_, deserted, accounted⟩ := State.accounted_iff_stops_empty (exec_of_restrict run)
  have away : (s.loops 0).phase ≠ .running := by rw [gone]; decide
  exact ⟨es, s, exec_of_restrict run, gone, (deserted 0 away [] s rfl).2.1, accounted.mpr run⟩

/-- The connection closes before the plan of its loop runs. The loop is empty at both ticks and is stopped, and the
reservation in its mailbox stays pending on the other loop. -/
theorem plan_lost_with_mailbox : ∃ es s, exec State.step (State.initial 2) es = some s ∧ (s.loops 0).phase = .joined ∧
    s.mail = [⟨0, .migrate [1]⟩] ∧ (s.loops 1).pending = 1 ∧ s.outstanding = [] :=
  ⟨acceptTwo ++ [.shrink 1 (fun _ => 1) (fun _ => 1) (fun _ _ _ => 1), .close 0 ⟨some 0, false, none, false⟩] ++
    firstTick ++ secondTick, exists_exec (by decide +kernel)⟩

end FluxKV.Server
