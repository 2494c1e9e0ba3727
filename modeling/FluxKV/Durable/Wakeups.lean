import FluxKV.Durable.Acks

/-! # Wakeups of parked writes

The notifier wakes a loop at most once per queued drain, skips loops whose count is not positive and skips
iterations in which nothing changed. A request is parked before its writer moves the generation on, and its
count is raised after the push. So a drain that an iteration relies on is either in the loop's mailbox or has
not yet gone past the requests that were parked when the iteration began.
-/

namespace FluxKV.Durable

open Engine Machine Counting

variable {cfg : Config} {s : State} {e : Event}

/-- What a running drain has answered and not yet taken off the count. -/
def DrainPc.done : DrainPc → ℕ
  | answering _ _ _ done => done
  | finishing done => done
  | _ => 0

namespace Loop

variable {l l' : Loop}

/-- A drain of the loop is queued, or is running and has yet to look at the request with a watermark that
covers it. -/
def Examines (l : Loop) (r : Request) (lsn : ℕ) : Prop :=
  0 < l.drains ∨
    match l.pc with
    | .entered | .cleared => True
    | .taken | .ready => r ∈ l.parkedLocal
    | .answering durable i _ _ => r ∈ l.parkedLocal.drop i ∧ lsn ≤ durable
    | .idle | .finishing _ => False

/-- What a drain has ahead of it is the request it looks at and what comes after. -/
theorem ahead_cases {r current : Request} {i : ℕ} (looks : l.parkedLocal[i]? = some current)
    (ahead : r ∈ l.parkedLocal.drop i) : r = current ∨ r ∈ l.parkedLocal.drop (i + 1) := by
  obtain ⟨short, rfl⟩ := List.getElem?_eq_some_iff.mp looks
  rw [List.drop_eq_getElem_cons short] at ahead
  exact List.mem_cons.mp ahead

/-- The count is of the requests parked here, but for pushes and answers it does not know of yet. -/
def Tally (l : Loop) : Prop :=
  l.parkedCount + (l.uncounted.map Prod.snd).sum = l.reqs.length + l.pc.done

theorem Tally.turn (tally : l.Tally) (turned : l'.reqs.Perm l.reqs) (answered : l'.pc.done = l.pc.done)
    (count : l'.parkedCount = l.parkedCount) (uncounted : l'.uncounted = l.uncounted) : l'.Tally := by
  rw [Tally, turned.length_eq, answered, count, uncounted]
  exact tally

end Loop

namespace State

/-- The state has moved past what an iteration of the notifier saw: it closed, another batch was parked, or
one is being parked. -/
def Moved (s : State) (g : ℕ) : Prop :=
  s.notifier = .cleared ∨ g < s.parkGen ∨ ∃ w, (s.writers w).begun = true

/-- Every parked request that a watermark covers is going to be looked at. -/
def Woken (s : State) (d t : ℕ) : Prop :=
  ∀ r ∈ (s.loops t).reqs, s.durableLsn r ≤ d → (s.loops t).Examines r (s.durableLsn r)

theorem parkGen_le_next : s.parkGen ≤ (s.next cfg e).parkGen := by
  cases e with
  | bumpGen w begun => exact Nat.le_succ _
  | _ => exact Nat.le_refl _

/-- A writer that began to park its batch ends by moving the generation on. -/
theorem begun_next {w : ℕ} (begun : (s.writers w).begun = true) (able : s.enabled e) :
    s.parkGen < (s.next cfg e).parkGen ∨ ((s.next cfg e).writers w).begun = true := by
  have put : ∀ {w' : ℕ} {pc : WriterPc}, ((s.writers w').begun = true → pc.begun = true) →
      (Function.update s.writers w' pc w).begun = true := by
    intro w' pc kept
    exact forall_update (P := fun w pc => (s.writers w).begun = true → WriterPc.begun pc = true) kept
      (fun _ here => here) w begun
  cases e with
  | bumpGen w' begun' => exact .inl (Nat.lt_succ_self _)
  | casPush w' t chain head share => exact .inr (put fun _ => rfl)
  | fail | postFailed | failed | orphan | loadHead | casMiss | addCount =>
    refine .inr (put ?_)
    rw [of_decide_eq_true able]
    exact fun here => here
  | writeDocs | stamp | awaitDurable | group | seeRegistered | register | handOrphans | addBytes =>
    refine .inr (put ?_)
    rw [(of_decide_eq_true able).1]
    exact fun here => here
  | _ => exact .inr begun

theorem Moved.next {g : ℕ} (moved : s.Moved g) (seen : g ≤ s.parkGen) (able : s.enabled e) :
    (s.next cfg e).Moved g := by
  rcases moved with cleared | newer | ⟨w, begun⟩
  · cases e with
    | openNotifier =>
      have unset : s.notifier = .unset := of_decide_eq_true able
      rw [unset] at cleared
      cases cleared
    | closeNotifier => exact .inl rfl
    | _ => exact .inl cleared
  · exact .inr (.inl (Nat.lt_of_lt_of_le newer parkGen_le_next))
  · rcases (begun_next begun able : s.parkGen < (s.next cfg e).parkGen ∨ _) with newer | begun
    · exact .inr (.inl (Nat.lt_of_le_of_lt seen newer))
    · exact .inr (.inr ⟨w, begun⟩)

/-- Before the notifier is set no batch is shared out. -/
def Quiet (s : State) : Prop :=
  s.notifier = .unset → (∀ w, (s.writers w).shared = false) ∧ ∀ t, (s.loops t).reqs = []

theorem Quiet.next (quiet : s.Quiet) (ordered : ∀ t, (s.loops t).Ordered s.watermark) (able : s.enabled e) :
    (s.next cfg e).Quiet := by
  intro unset
  have before : s.notifier = .unset := by
    cases e with
    | openNotifier | closeNotifier => cases unset
    | _ => exact unset
  obtain ⟨unshared, empty⟩ := quiet before
  have idle : ∀ {w pc}, s.writers w = pc → pc.shared = false := by
    rintro w _ rfl
    exact unshared w
  constructor
  · have put : ∀ {w pc}, WriterPc.shared pc = false → ∀ w', (Function.update s.writers w pc w').shared = false :=
      fun here => forall_update (P := fun _ pc => WriterPc.shared pc = false) here unshared
    cases e with
    | writeDocs | fail | postFailed | failed | stamp | awaitDurable | addBytes | bumpGen => exact put rfl
    | group w batch sorted lsn =>
      have set := (of_decide_eq_true able).2.1
      rw [before] at set
      cases set
    | orphan | loadHead | casMiss | addCount =>
      cases idle (of_decide_eq_true able)
    | casPush | seeRegistered | register | handOrphans =>
      cases idle (of_decide_eq_true able).1
    | _ => exact unshared
  · intro t
    apply List.eq_nil_iff_forall_not_mem.mpr
    intro r member
    rcases parked_of_mem_next ordered able member with here | ⟨w, chain, head, share, rfl, mine⟩
    · rw [empty t] at here
      cases here
    · cases idle (of_decide_eq_true able).1

/-- A drain that has a request ahead of it answers it, or still has it ahead. -/
theorem examines_next {t : ℕ} {r : Request} (examines : (s.loops t).Examines r (s.durableLsn r))
    (member : r ∈ (s.loops t).reqs) (after : r ∈ ((s.next cfg e).loops t).reqs) (held : s.Held)
    (ordered : ∀ t, (s.loops t).Ordered s.watermark) (set : s.notifier = .set)
    (reached : s.durableLsn r ≤ s.watermark) (able : s.enabled e) :
    ((s.next cfg e).loops t).Examines r (s.durableLsn r) := by
  have put : ∀ {u : ℕ} {l : Loop}, (u = t → l.Examines r (s.durableLsn r)) →
      (Function.update s.loops u l t).Examines r (s.durableLsn r) := by
    intro u l here
    rw [Function.update_apply]
    split
    · next same => exact here same.symm
    · exact examines
  cases e with
  | casPush w u | addCount w u | register w u | wakeExchange g d u =>
    apply put
    rintro rfl
    exact examines
  | wakePost g d u left =>
    apply put
    rintro rfl
    exact .inl (Nat.succ_pos _)
  | drainEnter u | drainClear u => exact put fun _ => .inr trivial
  | drainTake u =>
    have cleared : (s.loops u).pc = .cleared := of_decide_eq_true able
    apply put
    rintro rfl
    rw [Loop.reqs_of_settled (by rw [cleared]; rfl)] at member
    exact .inr (List.perm_append_comm.subset member)
  | drainCheck u =>
    have taken : (s.loops u).pc = .taken := of_decide_eq_true able
    apply put
    rintro rfl
    refine examines.imp_right fun ahead => ?_
    simp only [taken] at ahead
    have some : ¬ (s.notifier ≠ .set ∨ (s.loops u).parkedLocal = []) := by
      rintro (unset | empty)
      · exact unset set
      · rw [empty] at ahead
        cases ahead
    simp only [if_neg some]
    exact ahead
  | drainLoad u =>
    have ready : (s.loops u).pc = .ready := of_decide_eq_true able
    apply put
    rintro rfl
    refine examines.imp_right fun ahead => ?_
    simp only [ready] at ahead
    exact ⟨ahead, reached⟩
  | drainAnswer u r' durable i kept done =>
    obtain ⟨running, current, covered⟩ := of_decide_eq_true able
    apply put
    rintro rfl
    refine examines.imp_right fun ahead => ?_
    simp only [running] at ahead
    rcases Loop.ahead_cases current ahead.1 with rfl | later
    · have nodup := held.distinct.nodup (.loop u)
      rw [place, ← (Loop.reqs_answer running current).nodup_iff] at nodup
      simp only [State.next, State.sendWriteResponse, State.setLoop, Function.update_self] at after
      exact ((List.disjoint_of_nodup_append nodup) after (List.mem_singleton.mpr rfl)).elim
    · exact ⟨later, ahead.2⟩
  | drainKeep u r' durable i kept done =>
    obtain ⟨running, current, uncovered⟩ := of_decide_eq_true able
    apply put
    rintro rfl
    refine examines.imp_right fun ahead => ?_
    simp only [running] at ahead
    rcases Loop.ahead_cases current ahead.1 with rfl | later
    · exact (Nat.not_le.mpr uncovered ahead.2).elim
    · refine ⟨?_, ahead.2⟩
      rwa [List.drop_set_of_lt (Nat.lt_succ_of_le (ordered u running).1)]
  | drainEnd u durable i kept done =>
    obtain ⟨running, all⟩ := of_decide_eq_true able
    apply put
    rintro rfl
    refine examines.imp_right fun ahead => ?_
    simp only [running, all, List.drop_length] at ahead
    cases ahead.1
  | drainSub u done =>
    have finishing : (s.loops u).pc = .finishing done := of_decide_eq_true able
    apply put
    rintro rfl
    refine examines.imp_right fun ahead => ?_
    simp only [finishing] at ahead
  | _ => exact examines

theorem Woken.next {g d t : ℕ} (woken : s.Woken d t) (held : s.Held)
    (ordered : ∀ t, (s.loops t).Ordered s.watermark) (quiet : s.Quiet) (reached : d ≤ s.watermark)
    (able : s.enabled e) (current : ¬ (s.next cfg e).Moved g) (seen : g ≤ s.parkGen) :
    (s.next cfg e).Woken d t := by
  intro r member due
  rcases parked_of_mem_next ordered able member with here | ⟨w, chain, head, share, rfl, mine⟩
  · have same : (s.next cfg e).durableLsn r = s.durableLsn r :=
      durableLsn_next (p := .loop t) held able here fun _ absurd => nomatch absurd
    rw [same] at due ⊢
    have set : s.notifier = .set := by
      cases phase : s.notifier with
      | set => rfl
      | unset =>
        rw [(quiet phase).2 t] at here
        cases here
      | cleared => exact (current (Moved.next (.inl phase) seen able)).elim
    exact examines_next (woken r here due) here member held ordered set (Nat.le_trans due reached) able
  · refine (current (.inr (.inr ⟨w, ?_⟩))).elim
    simp only [State.next, State.setLoop, State.setWriter, Function.update_self]
    rfl

/-- What an iteration of the notifier that saw a generation and a watermark gives for a loop. -/
def Served (s : State) (g d t : ℕ) : Prop := ¬ s.Moved g → s.Woken d t

/-- The notifier has seen this generation and watermark. -/
def Seen (s : State) (g d : ℕ) : Prop := g ≤ s.parkGen ∧ d ≤ s.watermark

theorem Seen.next {g d : ℕ} (seen : s.Seen g d) (able : s.enabled e) : (s.next cfg e).Seen g d :=
  ⟨Nat.le_trans seen.1 parkGen_le_next, Nat.le_trans seen.2 (watermark_le_next able)⟩

theorem Served.next {g d t : ℕ} (served : s.Served g d t) (held : s.Held)
    (ordered : ∀ t, (s.loops t).Ordered s.watermark) (quiet : s.Quiet) (seen : s.Seen g d)
    (able : s.enabled e) : (s.next cfg e).Served g d t := by
  intro current
  have before : ¬ s.Moved g := fun moved => current (moved.next seen.1 able)
  exact (served before).next held ordered quiet seen.2 able current seen.1

/-- The pushes that a loop's count does not show are those of writers about to raise it. -/
structure Ledger (s : State) : Prop where
  nodup : ∀ t, (s.loops t).uncounted.Nodup
  mem_iff : ∀ {t w n}, (w, n) ∈ (s.loops t).uncounted ↔ (s.writers w).uncounted = some (t, n)

theorem Ledger.same {s' : State} (ledger : s.Ledger)
    (writers : ∀ w, (s'.writers w).uncounted = (s.writers w).uncounted)
    (loops : ∀ t, (s'.loops t).uncounted = (s.loops t).uncounted) : s'.Ledger where
  nodup t := by
    rw [loops t]
    exact ledger.nodup t
  mem_iff {t w n} := by
    rw [loops t, writers w]
    exact ledger.mem_iff

theorem Ledger.next (ledger : s.Ledger) (able : s.enabled e) : (s.next cfg e).Ledger := by
  have stay : ∀ t, (s.loops t).uncounted = (s.loops t).uncounted := fun _ => rfl
  have loop : ∀ {t : ℕ} {l : Loop}, l.uncounted = (s.loops t).uncounted →
      ∀ t', (Function.update s.loops t l t').uncounted = (s.loops t').uncounted :=
    fun here => forall_update (P := fun t l => Loop.uncounted l = (s.loops t).uncounted) here stay
  have writer : ∀ {w : ℕ} {pc : WriterPc}, pc.uncounted = (s.writers w).uncounted →
      ∀ w', (Function.update s.writers w pc w').uncounted = (s.writers w').uncounted :=
    fun here => forall_update (P := fun w pc => WriterPc.uncounted pc = (s.writers w).uncounted) here fun _ => rfl
  cases e with
  | fail | postFailed | failed | orphan | loadHead | casMiss | bumpGen =>
    refine ledger.same (writer ?_) stay
    rw [of_decide_eq_true able]
    rfl
  | writeDocs | stamp | awaitDurable | group | seeRegistered | handOrphans | addBytes =>
    refine ledger.same (writer ?_) stay
    rw [(of_decide_eq_true able).1]
    rfl
  | register =>
    refine ledger.same (writer ?_) (loop rfl)
    rw [(of_decide_eq_true able).1]
    rfl
  | wakeExchange | wakePost | drainEnter | drainClear | drainTake | drainCheck | drainLoad | drainAnswer | drainKeep
  | drainEnd | drainSub => exact ledger.same (fun _ => rfl) (loop rfl)
  | casPush w t chain head share =>
    have absent : ∀ {t n}, (w, n) ∉ (s.loops t).uncounted := by
      intro t n member
      have counting := ledger.mem_iff.mp member
      rw [(of_decide_eq_true able).1] at counting
      cases counting
    refine ⟨?_, fun {t' w' n'} => ?_⟩
    · exact forall_update (P := fun _ l => (Loop.uncounted l).Nodup)
        (List.nodup_cons.mpr ⟨absent, ledger.nodup t⟩) ledger.nodup
    · have before := ledger.mem_iff (t := t') (w := w') (n := n')
      simp only [State.next, State.setLoop, State.setWriter]
      rcases eq_or_ne t' t with rfl | other <;> rcases eq_or_ne w' w with rfl | apart
      · simp [absent, WriterPc.uncounted, eq_comm]
      · simp [apart, before]
      · simp [other, absent, other.symm, WriterPc.uncounted]
      · simp [other, apart, before]
  | addCount w t n share =>
    have counting : s.writers w = .counting t n share := of_decide_eq_true able
    have only : ∀ {t' n'}, (w, n') ∈ (s.loops t').uncounted ↔ t' = t ∧ n' = n := by
      intro t' n'
      rw [ledger.mem_iff, counting]
      simp [WriterPc.uncounted, eq_comm]
    refine ⟨?_, fun {t' w' n'} => ?_⟩
    · exact forall_update (P := fun _ l => (Loop.uncounted l).Nodup) ((ledger.nodup t).erase _) ledger.nodup
    · have before := ledger.mem_iff (t := t') (w := w') (n := n')
      simp only [State.next, State.setLoop, State.setWriter]
      rcases eq_or_ne t' t with rfl | other <;> rcases eq_or_ne w' w with rfl | apart
      · simp [(ledger.nodup t').mem_erase_iff, only, WriterPc.uncounted]
      · simp [(ledger.nodup t').mem_erase_iff, apart, before]
      · simp [other, only, WriterPc.uncounted]
      · simp [other, apart, before]
  | _ => exact ledger.same (fun _ => rfl) stay

theorem tally_next (tally : ∀ t, (s.loops t).Tally) (ledger : s.Ledger)
    (ordered : ∀ t, (s.loops t).Ordered s.watermark) (able : s.enabled e) :
    ∀ t, ((s.next cfg e).loops t).Tally := by
  have put : ∀ {t : ℕ} {l : Loop}, l.Tally → ∀ t', (Function.update s.loops t l t').Tally :=
    fun here => forall_update (P := fun _ l => Loop.Tally l) here tally
  cases e with
  | casPush w t chain head share =>
    have before := tally t
    apply put
    simp only [Loop.Tally, Loop.reqs, Loop.waiting, List.map_cons, List.sum_cons, List.length_append]
      at before ⊢
    omega
  | addCount w t n share =>
    have counting : s.writers w = .counting t n share := of_decide_eq_true able
    have pushed : (w, n) ∈ (s.loops t).uncounted := ledger.mem_iff.mpr (by rw [counting]; rfl)
    have raised := ((List.perm_cons_erase pushed).map Prod.snd).sum_eq
    have before := tally t
    apply put
    simp only [Loop.Tally, Loop.reqs, Loop.waiting, List.map_cons, List.sum_cons] at before raised ⊢
    omega
  | register _ t | wakeExchange _ _ t | wakePost _ _ t => exact put (tally t)
  | drainEnter t | drainClear t =>
    have able := of_decide_eq_true able
    refine put ((tally t).turn (Loop.reqs_perm_of_settled ?_ rfl (.refl _)) ?_ rfl rfl)
    · simp [able, DrainPc.settled]
    · simp [able, DrainPc.done]
  | drainTake t =>
    have able := of_decide_eq_true able
    refine put ((tally t).turn (Loop.reqs_take (by rw [able]; rfl)) ?_ rfl rfl)
    simp only [DrainPc.done, able]
  | drainCheck t =>
    have able := of_decide_eq_true able
    refine put ((tally t).turn (Loop.reqs_perm_of_settled (by rw [able]; rfl) ?_ (.refl _)) ?_ rfl rfl)
    · dsimp only
      split <;> rfl
    · simp only [able]
      split <;> rfl
  | drainLoad t =>
    have able := of_decide_eq_true able
    refine put ((tally t).turn (by rw [Loop.reqs_load (by rw [able]; rfl)]) ?_ rfl rfl)
    simp only [DrainPc.done, able]
  | drainAnswer t r durable i kept done =>
    obtain ⟨running, current, covered⟩ := of_decide_eq_true able
    have fewer := (Loop.reqs_answer running current).length_eq
    have before := tally t
    apply put
    simp only [Loop.Tally, DrainPc.done, running, List.length_append, List.length_singleton] at before fewer ⊢
    omega
  | drainKeep t r durable i kept done =>
    obtain ⟨running, current, ahead⟩ := of_decide_eq_true able
    refine put ((tally t).turn (by rw [Loop.reqs_keep running (ordered t running).1 current]) ?_ rfl rfl)
    simp only [DrainPc.done, running]
  | drainEnd t durable i kept done =>
    obtain ⟨running, all⟩ := of_decide_eq_true able
    refine put ((tally t).turn (by rw [Loop.reqs_end running all]) ?_ rfl rfl)
    simp only [running]
    split
    · next none => exact none.symm
    · rfl
  | drainSub t done =>
    have able := of_decide_eq_true able
    have before := tally t
    have settled : (s.loops t).pc.settled = true := by rw [able]; rfl
    apply put
    rw [Loop.Tally, Loop.reqs_of_settled settled, able] at before
    rw [Loop.Tally, Loop.reqs_of_settled rfl]
    simp only [DrainPc.done] at before ⊢
    omega
  | _ => exact tally

/-- A loop whose flag is up has a drain that has not lowered it, or is about to be posted one. -/
def Flagged (s : State) (t : ℕ) (l : Loop) : Prop :=
  l.wakeQueued = true → 0 < l.drains ∨ l.pc = .entered ∨ ∃ g d left, s.pc = .posting g d t left

theorem flagged_next (flagged : ∀ t, s.Flagged t (s.loops t)) (able : s.enabled e) :
    ∀ t, (s.next cfg e).Flagged t ((s.next cfg e).loops t) := by
  have put : ∀ {u : ℕ} {l : Loop}, s.Flagged u l → ∀ t, s.Flagged t (Function.update s.loops u l t) :=
    fun here => forall_update (P := fun t l => s.Flagged t l) here flagged
  -- A drain past `entered` has lowered the flag. If it is up again, another drain is behind it.
  have past : ∀ {u : ℕ} {pc : DrainPc}, (s.loops u).pc = pc → pc ≠ .entered → ∀ {l : Loop},
      l.wakeQueued = (s.loops u).wakeQueued → l.drains = (s.loops u).drains →
      ∀ t, s.Flagged t (Function.update s.loops u l t) := by
    intro u pc here late l flag drains
    refine put fun queued => ?_
    rcases flagged u (flag ▸ queued) with waiting | entered | posting
    · exact .inl (drains ▸ waiting)
    · exact (late (here.symm.trans entered)).elim
    · exact .inr (.inr posting)
  -- An event of the notifier other than the post itself.
  have other : ∀ {pc : NotifierPc}, s.pc = pc → (∀ g d t left, pc ≠ .posting g d t left) → ∀ {t : ℕ},
      (s.loops t).wakeQueued = true → 0 < (s.loops t).drains ∨ (s.loops t).pc = .entered := by
    intro pc here elsewhere t queued
    rcases flagged t queued with waiting | entered | ⟨g, d, left, posting⟩
    · exact .inl waiting
    · exact .inr entered
    · exact (elsewhere g d t left (here.symm.trans posting)).elim
  cases e with
  | casPush _ t | addCount _ t | register _ t => exact put (flagged t)
  | drainEnter t => exact put fun _ => .inr (.inl rfl)
  | drainClear t => exact put fun lowered => nomatch lowered
  | drainTake t | drainCheck t | drainLoad t | drainSub t =>
    exact past (of_decide_eq_true able) DrainPc.noConfusion rfl rfl
  | drainAnswer t | drainKeep t | drainEnd t =>
    exact past (of_decide_eq_true able).1 DrainPc.noConfusion rfl rfl
  | loadGen | loadDurable | wakeLoad | wakeDone =>
    intro t queued
    exact (other (of_decide_eq_true able) (fun _ _ _ _ => NotifierPc.noConfusion) queued).imp_right .inl
  | unchanged | lockLoops =>
    intro t queued
    exact (other (of_decide_eq_true able).1 (fun _ _ _ _ => NotifierPc.noConfusion) queued).imp_right .inl
  | wakeExchange g d u left =>
    have before := fun {t : ℕ} => other (t := t) (of_decide_eq_true able) fun _ _ _ _ => NotifierPc.noConfusion
    refine forall_update (P := fun t l => (s.next cfg (.wakeExchange g d u left)).Flagged t l) (fun _ => ?_)
      fun t queued => (before queued).imp_right .inl
    cases flag : (s.loops u).wakeQueued with
    | true => exact (before flag).imp_right .inl
    | false =>
      refine .inr (.inr ⟨g, d, left, ?_⟩)
      simp only [State.next, State.setLoop, flag]
      rfl
  | wakePost g d u left =>
    have posting : s.pc = .posting g d u left := of_decide_eq_true able
    apply (Function.forall_update_iff s.loops fun t l => (s.next cfg (.wakePost g d u left)).Flagged t l).mpr
    refine ⟨fun _ => .inl (Nat.succ_pos _), fun t elsewhere queued => ?_⟩
    rcases flagged t queued with waiting | entered | ⟨g', d', left', here⟩
    · exact .inl waiting
    · exact .inr (.inl entered)
    · rw [posting] at here
      cases here
      exact (elsewhere rfl).elim
  | _ => exact flagged

theorem registered_next {t : ℕ} (registered : (s.loops t).registered = true) :
    ((s.next cfg e).loops t).registered = true := by
  have put : ∀ {u : ℕ} {l : Loop}, ((s.loops u).registered = true → l.registered = true) →
      (Function.update s.loops u l t).registered = true := by
    intro u l kept
    exact forall_update (P := fun t l => (s.loops t).registered = true → Loop.registered l = true) kept
      (fun _ here => here) t registered
  cases e with
  | casPush | addCount | wakeExchange | wakePost | drainEnter | drainClear | drainTake | drainCheck | drainLoad
  | drainAnswer | drainKeep | drainEnd | drainSub => exact put fun here => here
  | register => exact put fun _ => rfl
  | _ => exact registered

/-- Registered loops are in the notifier's list. -/
theorem registry_next (listed : ∀ t, (s.loops t).registered = true → t ∈ s.registry) :
    ∀ t, ((s.next cfg e).loops t).registered = true → t ∈ (s.next cfg e).registry := by
  have put : ∀ {u : ℕ} {l : Loop}, l.registered = (s.loops u).registered →
      ∀ t, (Function.update s.loops u l t).registered = true → t ∈ s.registry :=
    fun {u} _ same => forall_update (P := fun t l => Loop.registered l = true → t ∈ s.registry)
      (fun here => listed u (same ▸ here)) listed
  cases e with
  | casPush | addCount | wakeExchange | wakePost | drainEnter | drainClear | drainTake | drainCheck | drainLoad
  | drainAnswer | drainKeep | drainEnd | drainSub => exact put rfl
  | register w u share =>
    exact forall_update (P := fun t l => Loop.registered l = true → t ∈ s.registry ++ [u])
      (fun _ => List.mem_append_right _ List.mem_cons_self) fun t here => List.mem_append_left _ (listed t here)
  | _ => exact listed

/-- A writer that makes sure of a registration has begun to park its batch. -/
theorem enlisting_begun_next (begun : ∀ w, (s.writers w).enlisting ≠ none → (s.writers w).begun = true)
    (able : s.enabled e) : ∀ w, ((s.next cfg e).writers w).enlisting ≠ none →
      ((s.next cfg e).writers w).begun = true := by
  have put : ∀ {w : ℕ} {pc : WriterPc}, (pc.enlisting ≠ none → pc.begun = true) →
      ∀ w', (Function.update s.writers w pc w').enlisting ≠ none → (Function.update s.writers w pc w').begun = true :=
    fun here => forall_update (P := fun _ pc => WriterPc.enlisting pc ≠ none → WriterPc.begun pc = true) here begun
  cases e with
  | casPush => exact put fun _ => rfl
  | addCount w t n share =>
    have before := begun w
    rw [of_decide_eq_true able] at before
    exact put fun _ => before (fun absurd => nomatch absurd)
  | writeDocs | fail | postFailed | failed | stamp | awaitDurable | group | orphan | loadHead | casMiss | seeRegistered
  | register | handOrphans | addBytes | bumpGen => exact put fun absurd => (absurd rfl).elim
  | _ => exact begun

theorem enlisting_next {w t : ℕ} (enlisting : (s.writers w).enlisting = some t) (able : s.enabled e) :
    ((s.next cfg e).writers w).enlisting = some t ∨ ((s.next cfg e).loops t).registered = true := by
  have put : ∀ {w' : ℕ} {pc : WriterPc}, ((s.writers w').enlisting = some t → pc.enlisting = some t) →
      (Function.update s.writers w' pc w).enlisting = some t := by
    intro w' pc kept
    exact forall_update (P := fun w pc => (s.writers w).enlisting = some t → WriterPc.enlisting pc = some t) kept
      (fun _ here => here) w enlisting
  cases e with
  | seeRegistered w' t' share =>
    obtain ⟨registering, registered⟩ := of_decide_eq_true able
    rcases eq_or_ne w w' with rfl | other
    · rw [registering] at enlisting
      cases enlisting
      exact .inr registered
    · refine .inl ?_
      simp only [State.next, State.setWriter, Function.update_of_ne other]
      exact enlisting
  | register w' t' share =>
    rcases eq_or_ne w w' with rfl | other
    · rw [(of_decide_eq_true able).1] at enlisting
      cases enlisting
      refine .inr ?_
      simp only [State.next, State.setLoop, Function.update_self]
    · refine .inl ?_
      simp only [State.next, State.setLoop, State.setWriter, Function.update_of_ne other]
      exact enlisting
  | fail | postFailed | failed | orphan | loadHead | casMiss | addCount | bumpGen =>
    refine .inl (put ?_)
    rw [of_decide_eq_true able]
    exact fun here => here
  | writeDocs | stamp | awaitDurable | group | casPush | handOrphans | addBytes =>
    refine .inl (put ?_)
    rw [(of_decide_eq_true able).1]
    intro absurd
    cases absurd
  | _ => exact .inl enlisting

/-- A loop that holds requests is registered, or a writer is about to make sure of it. -/
def Enlisted (s : State) (t : ℕ) : Prop :=
  (s.loops t).reqs ≠ [] → (s.loops t).registered = true ∨ ∃ w, (s.writers w).enlisting = some t

theorem enlisted_next {t : ℕ} (enlisted : s.Enlisted t) (ordered : ∀ t, (s.loops t).Ordered s.watermark)
    (able : s.enabled e) : (s.next cfg e).Enlisted t := by
  intro some
  obtain ⟨r, member⟩ := List.exists_mem_of_ne_nil _ some
  rcases parked_of_mem_next ordered able member with here | ⟨w, chain, head, share, rfl, mine⟩
  · rcases enlisted (List.ne_nil_of_mem here) with registered | ⟨w, enlisting⟩
    · exact .inl (registered_next registered)
    · rcases (enlisting_next enlisting able : ((s.next cfg e).writers w).enlisting = _ ∨ _) with still | registered
      · exact .inr ⟨w, still⟩
      · exact .inl registered
  · refine .inr ⟨w, ?_⟩
    simp only [State.next, State.setLoop, State.setWriter, Function.update_self]
    rfl

end State

/-- What an iteration of the notifier saw, and the loops it has yet to look at. -/
def NotifierPc.round : NotifierPc → Option (ℕ × ℕ × List ℕ)
  | waking g d left => some (g, d, left)
  | exchanging g d t left => some (g, d, t :: left)
  | posting g d t left => some (g, d, t :: left)
  | _ => none

namespace State

/-- What the iterations of the notifier have seen and served. -/
structure Rounds (s : State) : Prop where
  gotGen : ∀ {g}, s.pc = .gotGen g → g ≤ s.parkGen
  gotBoth : ∀ {g d}, s.pc = .gotBoth g d → s.Seen g d
  round : ∀ {g d left}, s.pc.round = some (g, d, left) → s.Seen g d ∧ ∀ t ∉ left, s.Served g d t
  last : s.Seen s.lastG s.lastD ∧ ∀ t, s.Served s.lastG s.lastD t
  finished : ∀ {g d}, (g, d) ∈ s.finished → s.Seen g d ∧ ∀ t, s.Served g d t

theorem Rounds.of_round {g d : ℕ} {left : List ℕ} (round : s.pc.round = some (g, d, left))
    (now : s.Seen g d ∧ ∀ t ∉ left, s.Served g d t) (last : s.Seen s.lastG s.lastD ∧ ∀ t, s.Served s.lastG s.lastD t)
    (finished : ∀ {g d}, (g, d) ∈ s.finished → s.Seen g d ∧ ∀ t, s.Served g d t) : s.Rounds where
  gotGen here := by
    rw [here] at round
    cases round
  gotBoth here := by
    rw [here] at round
    cases round
  round here := by
    rw [round] at here
    cases here
    exact now
  last := last
  finished := finished

theorem answers_next : (s.answers.map Answer.req).Sublist ((s.next cfg e).answers.map Answer.req) := by
  cases e with
  | drainAnswer | answer => exact (List.sublist_append_left _ _).map _
  | _ => exact List.Sublist.refl _

/-- What holds in every run. -/
structure Alert (cfg : Config) (s : State) : Prop where
  covered : Covered cfg s
  quiet : s.Quiet
  ledger : s.Ledger
  tally : ∀ t, (s.loops t).Tally
  flagged : ∀ t, s.Flagged t (s.loops t)
  listed : ∀ t, (s.loops t).registered = true → t ∈ s.registry
  begun : ∀ w, (s.writers w).enlisting ≠ none → (s.writers w).begun = true
  enlisted : ∀ t, s.Enlisted t
  rounds : s.Rounds

variable {g d t : ℕ} (alert : Alert cfg s)

include alert

/-- A loop that is not in the list holds nothing, unless a batch is being parked. -/
theorem Alert.served_of_unlisted (unlisted : t ∉ s.registry) : s.Served g d t := by
  intro current r member
  rcases alert.enlisted t (List.ne_nil_of_mem member) with registered | ⟨w, enlisting⟩
  · exact (unlisted (alert.listed t registered)).elim
  · refine (current (.inr (.inr ⟨w, alert.begun w ?_⟩))).elim
    rw [enlisting]
    exact fun absurd => nomatch absurd

theorem Alert.uncounted_eq_nil (still : ∀ w, (s.writers w).begun = false) : (s.loops t).uncounted = [] := by
  apply List.eq_nil_iff_forall_not_mem.mpr
  rintro ⟨w, n⟩ member
  have counting := alert.ledger.mem_iff.mp member
  have begun := alert.begun w
  rw [still w] at begun
  cases pc : s.writers w with
  | counting t' n' share =>
    rw [pc] at begun
    cases begun fun absurd => nomatch absurd
  | _ =>
    rw [pc] at counting
    cases counting

/-- A loop whose count is not positive holds nothing, unless a batch is being parked. -/
theorem Alert.served_of_uncounted (few : (s.loops t).parkedCount ≤ 0) : s.Served g d t := by
  intro current r member
  have still : ∀ w, (s.writers w).begun = false := by
    intro w
    apply Bool.eq_false_iff.mpr
    exact fun begun => current (.inr (.inr ⟨w, begun⟩))
  have tally := alert.tally t
  have some := List.length_pos_of_mem member
  rw [Loop.Tally, alert.uncounted_eq_nil still] at tally
  simp only [List.map_nil, List.sum_nil] at tally
  omega

/-- A loop whose flag is up has a drain ahead of every request. -/
theorem Alert.served_of_flagged (queued : (s.loops t).wakeQueued = true)
    (elsewhere : ∀ g d left, s.pc ≠ .posting g d t left) : s.Served g d t := by
  intro _ r _ _
  rcases alert.flagged t queued with waiting | entered | ⟨g, d, left, posting⟩
  · exact .inl waiting
  · refine .inr ?_
    rw [entered]
    trivial
  · exact (elsewhere g d left posting).elim

theorem Alert.served_next (able : s.enabled e) (seen : s.Seen g d) (served : s.Served g d t) :
    (s.next cfg e).Served g d t :=
  served.next alert.covered.held alert.covered.ordered alert.quiet seen able

theorem Alert.rounds_same (able : s.enabled e) (pc : (s.next cfg e).pc = s.pc)
    (lastG : (s.next cfg e).lastG = s.lastG) (lastD : (s.next cfg e).lastD = s.lastD)
    (finished : (s.next cfg e).finished = s.finished) : (s.next cfg e).Rounds where
  gotGen here := Nat.le_trans (alert.rounds.gotGen (pc ▸ here)) parkGen_le_next
  gotBoth here := (alert.rounds.gotBoth (pc ▸ here)).next able
  round here := by
    obtain ⟨seen, served⟩ := alert.rounds.round (pc ▸ here)
    exact ⟨seen.next able, fun t outside => alert.served_next able seen (served t outside)⟩
  last := by
    obtain ⟨seen, served⟩ := alert.rounds.last
    rw [lastG, lastD]
    exact ⟨seen.next able, fun t => alert.served_next able seen (served t)⟩
  finished here := by
    obtain ⟨seen, served⟩ := alert.rounds.finished (finished ▸ here)
    exact ⟨seen.next able, fun t => alert.served_next able seen (served t)⟩

theorem Alert.rounds_next (able : s.enabled e) : (s.next cfg e).Rounds := by
  have last : (s.next cfg e).Seen s.lastG s.lastD ∧ ∀ t, (s.next cfg e).Served s.lastG s.lastD t := by
    obtain ⟨seen, served⟩ := alert.rounds.last
    exact ⟨seen.next able, fun t => alert.served_next able seen (served t)⟩
  have finished : ∀ {g d}, (g, d) ∈ s.finished → (s.next cfg e).Seen g d ∧ ∀ t, (s.next cfg e).Served g d t := by
    intro g d member
    obtain ⟨seen, served⟩ := alert.rounds.finished member
    exact ⟨seen.next able, fun t => alert.served_next able seen (served t)⟩
  have also : ∀ {g d g' d'}, ((s.next cfg e).Seen g d ∧ ∀ t, (s.next cfg e).Served g d t) →
      (g', d') ∈ s.finished ++ [(g, d)] → (s.next cfg e).Seen g' d' ∧ ∀ t, (s.next cfg e).Served g' d' t := by
    intro g d g' d' now member
    rcases List.mem_append.mp member with before | here
    · exact finished before
    · cases List.mem_singleton.mp here
      exact now
  cases e with
  | loadGen =>
    refine ⟨?_, (by rintro _ _ ⟨⟩), (by rintro _ _ _ ⟨⟩), last, finished⟩
    rintro g ⟨⟩
    exact Nat.le_refl _
  | loadDurable g =>
    refine ⟨(by rintro _ ⟨⟩), ?_, (by rintro _ _ _ ⟨⟩), last, finished⟩
    rintro g d ⟨⟩
    exact ⟨alert.rounds.gotGen (of_decide_eq_true able), Nat.le_refl _⟩
  | unchanged g d =>
    obtain ⟨_, rfl, rfl⟩ := of_decide_eq_true able
    exact ⟨(by rintro _ ⟨⟩), (by rintro _ _ ⟨⟩), (by rintro _ _ _ ⟨⟩), last, also last⟩
  | lockLoops g d =>
    refine ⟨(by rintro _ ⟨⟩), (by rintro _ _ ⟨⟩), ?_, last, finished⟩
    have seen := alert.rounds.gotBoth (of_decide_eq_true able).1
    rintro g d left ⟨⟩
    exact ⟨seen.next able, fun t outside => alert.served_next able seen (alert.served_of_unlisted outside)⟩
  | wakeLoad g d u left =>
    have waking : s.pc = .waking g d (u :: left) := of_decide_eq_true able
    obtain ⟨seen, served⟩ := alert.rounds.round (by rw [waking]; rfl)
    rcases Int.lt_or_le 0 (s.loops u).parkedCount with more | few
    · refine .of_round (by simp only [State.next, if_pos more]; rfl) ⟨seen.next able, fun t outside => ?_⟩ last finished
      exact alert.served_next able seen (served t outside)
    · refine .of_round (by simp only [State.next, if_neg (Int.not_lt.mpr few)]; rfl)
        ⟨seen.next able, fun t outside => alert.served_next able seen ?_⟩ last finished
      rcases eq_or_ne t u with rfl | other
      · exact alert.served_of_uncounted few
      · exact served t (List.not_mem_cons_of_ne_of_not_mem other outside)
  | wakeExchange g d u left =>
    have exchanging : s.pc = .exchanging g d u left := of_decide_eq_true able
    obtain ⟨seen, served⟩ := alert.rounds.round (by rw [exchanging]; rfl)
    cases flag : (s.loops u).wakeQueued with
    | false =>
      refine .of_round (by simp only [State.next, State.setLoop, flag]; rfl)
        ⟨seen.next able, fun t outside => ?_⟩ last finished
      exact alert.served_next able seen (served t outside)
    | true =>
      refine .of_round (by simp only [State.next, State.setLoop, flag]; rfl)
        ⟨seen.next able, fun t outside => alert.served_next able seen ?_⟩ last finished
      rcases eq_or_ne t u with rfl | other
      · apply alert.served_of_flagged flag
        rw [exchanging]
        exact fun _ _ _ => NotifierPc.noConfusion
      · exact served t (List.not_mem_cons_of_ne_of_not_mem other outside)
  | wakePost g d u left =>
    have posting : s.pc = .posting g d u left := of_decide_eq_true able
    obtain ⟨seen, served⟩ := alert.rounds.round (by rw [posting]; rfl)
    refine .of_round rfl ⟨seen.next able, fun t outside => ?_⟩ last finished
    rcases eq_or_ne t u with rfl | other
    · intro _ r _ _
      simp only [State.next, State.setLoop, Function.update_self]
      exact .inl (Nat.succ_pos _)
    · exact alert.served_next able seen (served t (List.not_mem_cons_of_ne_of_not_mem other outside))
  | wakeDone g d =>
    have waking : s.pc = .waking g d [] := of_decide_eq_true able
    obtain ⟨seen, served⟩ := alert.rounds.round (by rw [waking]; rfl)
    have now : (s.next cfg (.wakeDone g d)).Seen g d ∧ ∀ t, (s.next cfg (.wakeDone g d)).Served g d t :=
      ⟨seen.next able, fun t => alert.served_next able seen (served t List.not_mem_nil)⟩
    exact ⟨(by rintro _ ⟨⟩), (by rintro _ _ ⟨⟩), (by rintro _ _ _ ⟨⟩), now, also now⟩
  | _ => exact alert.rounds_same able rfl rfl rfl rfl

theorem Alert.next (able : s.enabled e) : Alert cfg (s.next cfg e) where
  covered := alert.covered.next able
  quiet := alert.quiet.next alert.covered.ordered able
  ledger := alert.ledger.next able
  tally := tally_next alert.tally alert.ledger alert.covered.ordered able
  flagged := flagged_next alert.flagged able
  listed := registry_next alert.listed
  begun := enlisting_begun_next alert.begun able
  enlisted t := enlisted_next (alert.enlisted t) alert.covered.ordered able
  rounds := alert.rounds_next able

omit alert

theorem alert_start : Alert cfg start where
  covered := covered_start
  quiet _ := ⟨fun _ => rfl, fun _ => rfl⟩
  ledger := ⟨fun _ => List.nodup_nil, ⟨(fun absurd => nomatch absurd), fun absurd => nomatch absurd⟩⟩
  tally _ := rfl
  flagged _ absurd := nomatch absurd
  listed _ absurd := nomatch absurd
  begun _ absurd := (absurd rfl).elim
  enlisted _ absurd := (absurd rfl).elim
  rounds := by
    refine ⟨(fun absurd => nomatch absurd), (fun absurd => nomatch absurd), (fun absurd => nomatch absurd), ?_,
      fun absurd => nomatch absurd⟩
    exact ⟨⟨Nat.le_refl 0, Nat.le_refl 0⟩, fun _ _ _ absurd => nomatch absurd⟩

theorem alert_of_reach (reached : Reach (State.step cfg) start s) : Alert cfg s := by
  apply reached.invariant (P := Alert cfg) alert_start
  intro s t e alert taken
  obtain ⟨able, rfl⟩ := step_eq_some taken
  exact alert.next able

/-- A request stays on its loop until it is answered. -/
theorem parked_or_answered {parked : State} {t : ℕ} {r : Request} (alert : Alert cfg parked)
    (reached : Reach (State.step cfg) parked s) (member : r ∈ (parked.loops t).reqs) :
    r ∈ (s.loops t).reqs ∨ r ∈ s.answers.map Answer.req := by
  have both : Alert cfg s ∧ (r ∈ (s.loops t).reqs ∨ r ∈ s.answers.map Answer.req) := by
    apply reached.invariant (P := fun s => Alert cfg s ∧ (r ∈ (s.loops t).reqs ∨ r ∈ s.answers.map Answer.req))
      ⟨alert, .inl member⟩
    rintro s e s' ⟨alert, before⟩ taken
    obtain ⟨able, rfl⟩ := step_eq_some taken
    refine ⟨alert.next able, ?_⟩
    rcases before with here | done
    · exact answered_of_not_mem_next alert.covered.ordered able here
    · exact .inr (answers_next.subset done)
  exact both.2

/-- Take a request parked at some time, a later state in which no batch is being parked, and an iteration of
the notifier that has seen that state's generation. If the watermark it saw covers the request, the request is
answered or a drain of its loop is going to look at it. The count of a loop is the number of requests parked on
it when no push to it is uncounted and no drain of it runs. -/
theorem parked_requests_examined {parked : State} (before : Reach (State.step cfg) start parked)
    (reached : Reach (State.step cfg) parked s) :
    (s.notifier ≠ .cleared → (∀ w, (s.writers w).begun = false) → ∀ d, (s.parkGen, d) ∈ s.finished →
      ∀ t, ∀ r ∈ (parked.loops t).reqs, s.durableLsn r ≤ d →
        r ∈ s.answers.map Answer.req ∨ r ∈ (s.loops t).reqs ∧ (s.loops t).Examines r (s.durableLsn r)) ∧
    ∀ t, (∀ w n, (s.writers w).uncounted ≠ some (t, n)) → (s.loops t).pc = .idle →
      (s.loops t).parkedCount = ((s.loops t).parkedHead ++ (s.loops t).parkedLocal).length := by
  have alert : Alert cfg s := alert_of_reach (before.trans reached)
  constructor
  · intro opened still d seen t r member due
    have current : ¬ s.Moved s.parkGen := by
      rintro (cleared | newer | ⟨w, begun⟩)
      · exact opened cleared
      · exact Nat.lt_irrefl _ newer
      · rw [still w] at begun
        cases begun
    rcases parked_or_answered (alert_of_reach before) reached member with here | done
    · exact .inr ⟨here, (alert.rounds.finished seen).2 t current r here due⟩
    · exact .inl done
  · intro t counted idle
    have none : (s.loops t).uncounted = [] := by
      apply List.eq_nil_iff_forall_not_mem.mpr
      exact fun ⟨w, n⟩ member => counted w n (alert.ledger.mem_iff.mp member)
    have tally := alert.tally t
    rw [Loop.Tally, none, Loop.reqs_of_settled (by rw [idle]; rfl), idle] at tally
    simpa [DrainPc.done] using tally

/-- The run of the two deletes until the notifier has woken their loop. -/
def wokenRun : Option State := exec (State.step ⟨.always, 0, id⟩) start (twoPaths.take 20)

theorem wokenRun_isSome : wokenRun.isSome = true := by
  decide +kernel

theorem parked_deletes_examined : ∃ s, Reach (State.step ⟨.always, 0, id⟩) start s ∧
    (s.loops 3).reqs = deletes.take 2 ∧ ∀ r ∈ deletes.take 2, r ∈ s.answers.map Answer.req ∨
      r ∈ (s.loops 3).reqs ∧ (s.loops 3).Examines r (s.durableLsn r) := by
  have seen : wokenRun.map (fun s => ((s.loops 3).reqs, s.notifier, s.parkGen, s.finished)) =
      some (deletes.take 2, .set, 1, [(1, 7)]) := by
    decide +kernel
  have covered : wokenRun.map (fun s => (s.loops 3).reqs.all fun r => s.durableLsn r ≤ 7) = some true := by
    decide +kernel
  have idle : ∀ w, ((wokenRun.get wokenRun_isSome).writers w).begun = false
    | 0 => by decide +kernel
    | _ + 1 => rfl
  obtain ⟨s, run⟩ := Option.isSome_iff_exists.mp wokenRun_isSome
  simp only [run, Option.map_some, Option.some.injEq, Prod.mk.injEq, Option.get_some] at seen covered idle
  obtain ⟨parked, set, gen, finished⟩ := seen
  have reached : Reach (State.step ⟨.always, 0, id⟩) start s := ⟨_, run⟩
  have opened : s.notifier ≠ .cleared := by
    rw [set]
    exact NotifierRef.noConfusion
  have observed : (s.parkGen, 7) ∈ s.finished := by
    rw [gen, finished]
    exact List.mem_cons_self
  refine ⟨s, reached, parked, fun r member => ?_⟩
  have here : r ∈ (s.loops 3).reqs := parked ▸ member
  have due : s.durableLsn r ≤ 7 := of_decide_eq_true (List.all_eq_true.mp covered r here)
  exact (parked_requests_examined reached (.refl _ _)).1 opened idle 7 observed 3 r here due

end State

end FluxKV.Durable
