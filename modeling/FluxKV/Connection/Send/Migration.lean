import FluxKV.Connection.Send.Counts

/-! # Leaving a loop

`tryFinishMigrate` looks at the count and at two buffers. The rest follows from what the senders keep: bytes
are spilled only while the flag says that a batch is going to flush them, and that batch has its requests
counted until it has. Each write of the socket has one entry in `inflightBufs_`.
-/

namespace FluxKV.Connection.Send

open Machine Protocol

variable {cfg : Config} {s : State} {e : Event} {m : Move} {i : ℕ}

namespace Op

/-- Has a chunk in hand that the loop has to finish, or is finishing one and has not flushed the spill yet. -/
def posts : Op → Bool
  | take _ chunks | look _ chunks | send _ chunks _ | unlockHeld chunks | recheck chunks | relock chunks
  | finish chunks => chunks.any Prod.snd
  | batch _ => true
  | flush after | flushLock after | flushSpill after => after.isSome
  | _ => false

/-- Can happen without `--direct-send`. -/
def plain : Op → Bool
  | sendDirect _ | hold _ | loadPending _ | casPending _ _ | retry | take _ _ | look _ _ | send _ _ _ | unlockHeld _
  | recheck _ | relock _ | finish _ | drainTry | batch _ | flushLock _ | flushSpill _ => false
  | flush after => after.isNone
  | _ => true

/-- Part of `tryFinishMigrate`. -/
def leaving : Op → Bool
  | tryFinishMigrate | leave | detach => true
  | _ => false

theorem not_leaving_of_buried {op : Op} (buried : op.buried = true) : op.leaving = false := by
  cases op with
  | tryFinishMigrate | leave | detach => cases buried
  | _ => rfl

/-- An operation that has a chunk for the loop has its requests counted. -/
theorem counts_pos_of_posts {op : Op} (posts : op.posts = true) (filled : op.Filled) : 0 < op.counts := by
  have chunk : ∀ {chunks : List Chunk}, chunks.any Prod.snd = true → (∀ chunk ∈ chunks, chunk.1 ≠ []) →
      0 < requestsIn chunks := by
    intro chunks some filled
    obtain ⟨c, member, _⟩ := List.any_eq_true.mp some
    exact Nat.lt_of_lt_of_le (List.length_pos_of_ne_nil (filled c member)) (length_le_requestsIn member)
  have after : ∀ {after : Option ℕ}, after.isSome = true → (∀ k ∈ after, 0 < k) → 0 < after.getD 0 := by
    intro after some pos
    obtain ⟨k, rfl⟩ := Option.isSome_iff_exists.mp some
    exact pos k rfl
  cases op with
  | take unsent chunks | look unsent chunks => exact Nat.add_pos_right _ (chunk posts filled)
  | send unsent chunks clear => exact Nat.add_pos_right _ (chunk posts filled.2)
  | unlockHeld chunks | recheck chunks | relock chunks | finish chunks => exact chunk posts filled
  | batch reqs => exact List.length_pos_of_ne_nil filled
  | flush k | flushLock k | flushSpill k => exact after posts filled
  | _ => cases posts

end Op

namespace State

/-- Without `--direct-send` nothing is sent by readers. -/
def Plain (cfg : Config) (s : State) : Prop :=
  cfg.directSend = false → s.sendPending = [] ∧ s.spillPosted = false ∧
    ∀ op ∈ s.calls.flatten ++ s.mail, op.plain = true

theorem plain_of_mem_new (guard : m.guard cfg s i = true) (none : s.sendPending = []) (unset : cfg.directSend = false)
    (plain : m.op.plain = true) : ∀ op ∈ m.new, op.plain = true := by
  have past : ∀ {after : Option ℕ}, ∀ op ∈ Move.released after, op.plain = true := by
    intro after op member
    obtain ⟨k, _, rfl⟩ := Move.mem_released member
    rfl
  have direct : ∀ {P : Prop}, cfg.directSend = true → P := by
    intro P set
    rw [unset] at set
    cases set
  cases m with
  | drainSome => exact (of_decide_eq_true guard none).elim
  | flushClosing | flushDirect => exact direct (Bool.and_eq_true_iff.mp guard).2
  | chainDirect r => exact direct guard
  | flushClosed after => exact past
  | flushPlain after => exact List.forall_mem_cons.mpr ⟨rfl, past⟩
  | _ => first | exact List.all_eq_true.mp rfl | cases plain

theorem Plain.next (plain : s.Plain cfg) (sane : s.Sane) (able : s.enabled cfg e) : (s.next e).Plain cfg := by
  intro unset
  obtain ⟨none, unposted, ops⟩ := plain unset
  have passed : ∀ {i m}, e = .run i m → m.op.plain = true := by
    rintro i m rfl
    obtain ⟨_, top, _⟩ := enabled_run able
    exact ops m.op (List.mem_append_left _ (mem_flatten_of_stackAt top))
  refine ⟨?_, ?_, forall_ops_next able sane.loop ops fun _ => ?_⟩
  · cases e with
    | run i m =>
      show (m.effect s i).sendPending = []
      cases m with
      | casPush => cases passed rfl
      | take => rfl
      | _ => exact none
    | call c => cases c <;> exact none
    | _ => exact none
  · cases e with
    | run i m =>
      show (m.effect s i).spillPosted = false
      cases m with
      | sendSome => cases passed rfl
      | flushSpillNone | flushSpillSome => rfl
      | _ => exact unposted
    | call c => cases c <;> exact unposted
    | _ => exact unposted
  · cases e with
    | run i m =>
      obtain ⟨_, _, guard⟩ := enabled_run able
      have here := passed rfl
      refine List.forall_mem_append.mpr ⟨plain_of_mem_new guard none unset here, List.all_eq_true.mp ?_⟩
      cases m with
      | finishPost => cases here
      | _ => rfl
    | call c =>
      apply List.all_eq_true.mp
      cases c <;> rfl
    | reader reqs =>
      have set : cfg.directSend = true := (of_decide_eq_true able).1
      rw [unset] at set
      cases set
    | _ => exact List.all_eq_true.mp rfl

/-- Bytes are spilled only while the flag is up, and it is up only while a batch is going to flush them. -/
structure Spilled (s : State) : Prop where
  flagged : s.spill ≠ [] → s.spillPosted = true
  batched : s.spillPosted = true → s.closing = true ∨ ∃ op ∈ s.calls.flatten ++ s.mail, op.posts = true

theorem closing_next (closing : s.closing = true) : (s.next e).closing = true := by
  cases e with
  | run i m =>
    show (m.effect s i).closing = true
    cases m with
    | destroy => rfl
    | _ => exact closing
  | call c => cases c <;> exact closing
  | _ => exact closing

/-- A chunk for the loop stays in hand until its batch flushes the spill. -/
theorem exists_posts_of_op (plain : s.Plain cfg) (able : s.enabled cfg (.run i m)) (opened : s.closing = false)
    (still : (s.next (.run i m)).spillPosted = true) (posts : m.op.posts = true) :
    ∃ op ∈ m.new ++ (Event.run i m).posted, op.posts = true := by
  obtain ⟨rest, top, guard⟩ := enabled_run able
  have chunk : ∀ {chunks : List Chunk} {unsent : List GetReply} {post : Bool}, chunks.any Prod.snd = true →
      ∃ op ∈ [Op.look (unsent.drop kMaxPerSend) (chunks ++ [(unsent.take kMaxPerSend, post)])],
        op.posts = true := by
    intro chunks unsent post posts
    refine ⟨_, List.mem_cons_self, ?_⟩
    simp only [Op.posts, List.any_append, posts, Bool.true_or]
  have closing : ∀ {P : Prop} {b : Bool}, (s.closing && b) = true → P := by
    intro P b both
    rw [opened] at both
    cases both
  cases m with
  | take | look | lookDone | unlockHeld | recheckNone | recheckSome | relockLocked | relockBusy | flushDirect
  | flushLock => exact ⟨_, List.mem_cons_self, posts⟩
  | finishDirect reqs chunks => exact ⟨_, List.mem_cons_of_mem _ List.mem_cons_self, posts⟩
  | sendAll | sendSome | sendBroken | sendNone => exact chunk posts
  | finishPost reqs chunks => exact ⟨.batch reqs, List.mem_append_right _ List.mem_cons_self, rfl⟩
  | batch reqs => exact ⟨_, List.mem_cons_self, rfl⟩
  | flushClosing | flushClosed => exact closing guard
  | flushPlain after =>
    have unset := Bool.eq_false_of_not_eq_true' (Bool.and_eq_true_iff.mp guard).2
    have none := (plain unset).2.2 _ (List.mem_append_left _ (mem_flatten_of_stackAt top))
    cases after with
    | none => cases posts
    | some k => cases none
  | flushSpillNone | flushSpillSome => cases still
  | _ => cases posts

/-- The flag goes up with a chunk that the loop has to finish. -/
theorem exists_posts_of_flag (able : s.enabled cfg e) (before : s.spillPosted = false)
    (after : (s.next e).spillPosted = true) : ∃ op ∈ e.new, op.posts = true := by
  have same : s.spillPosted = true → ∃ op ∈ e.new, op.posts = true := by
    intro up
    rw [before] at up
    cases up
  cases e with
  | run i m =>
    obtain ⟨_, _, guard⟩ := enabled_run able
    change (m.effect s i).spillPosted = true at after
    cases m with
    | sendSome unsent chunks clear sent post =>
      obtain ⟨_, _, _, rfl⟩ := of_decide_eq_true guard
      refine ⟨_, List.mem_cons_self, ?_⟩
      simp only [Op.posts, List.any_append, before, Bool.not_false, List.any_cons, Bool.true_or, Bool.or_true]
    | flushSpillNone | flushSpillSome => cases after
    | _ => exact same after
  | call c => cases c <;> exact same after
  | _ => exact same after

theorem Spilled.next (spilled : s.Spilled) (sane : s.Sane) (plain : s.Plain cfg) (able : s.enabled cfg e) :
    (s.next e).Spilled where
  flagged := by
    cases e with
    | run i m =>
      obtain ⟨_, _, guard⟩ := enabled_run able
      show (m.effect s i).spill ≠ [] → (m.effect s i).spillPosted = true
      cases m with
      | sendSome => exact fun _ => rfl
      | flushSpillNone => exact fun some => (some (of_decide_eq_true guard)).elim
      | flushSpillSome | chainSpillSome | markClose => exact fun absurd => (absurd rfl).elim
      | _ => exact spilled.flagged
    | call c => cases c <;> exact spilled.flagged
    | _ => exact spilled.flagged
  batched := by
    intro still
    cases opened : s.closing with
    | true => exact .inl (closing_next opened)
    | false =>
      refine .inr ?_
      cases before : s.spillPosted with
      | true =>
        rcases spilled.batched before with absurd | batched
        · rw [opened] at absurd
          cases absurd
        · refine exists_ops_next able sane.loop batched fun old member posts => ?_
          cases e with
          | run i m =>
            obtain rfl := List.mem_singleton.mp member
            exact exists_posts_of_op plain able opened still posts
          | _ => cases member
      | false =>
        obtain ⟨op, member, posts⟩ := exists_posts_of_flag able before still
        exact ⟨op, added_subset_next able sane.loop (List.mem_append_left _ member), posts⟩

/-- Each write that the socket has queued is counted and has its entry. -/
structure Paired (s : State) : Prop where
  counted : s.follyWrites = s.queued.length
  kept : s.inflightBufs.length = s.queued.length

theorem Paired.write (paired : s.Paired) (kept bytes : Bytes) : (s.write kept bytes).Paired where
  counted := by simp [State.write, paired.counted]
  kept := by simp [State.write, paired.kept]

theorem Paired.complete (paired : s.Paired) (some : s.queued ≠ []) : s.complete.Paired where
  counted := by
    have long := List.length_pos_of_ne_nil some
    have counted := paired.counted
    simp only [State.complete, List.length_tail]
    omega
  kept := by simp only [State.complete, List.length_tail, paired.kept]

theorem Paired.next (paired : s.Paired) (able : s.enabled cfg e) : (s.next e).Paired := by
  have same : ∀ {t : State}, t.follyWrites = s.follyWrites → t.queued = s.queued → t.inflightBufs = s.inflightBufs →
      t.Paired := by
    intro t writes queued bufs
    exact ⟨by rw [writes, queued, paired.counted], by rw [bufs, queued, paired.kept]⟩
  cases e with
  | run i m =>
    suffices after : (m.effect s i).Paired from ⟨after.counted, after.kept⟩
    cases m with
    | flushSpillSome | flushBufSome | chainSpillSome | chainBuf =>
      exact ⟨(paired.write [] _).counted, (paired.write _ _).kept⟩
    | _ => exact same rfl rfl rfl
  | call c => cases c <;> exact same rfl rfl rfl
  | progress n =>
    obtain ⟨_, pos, inside⟩ := of_decide_eq_true able
    obtain ⟨counted, kept⟩ := paired
    revert inside counted kept
    simp only [State.next]
    cases s.queued with
    | nil => exact fun inside => absurd inside (Nat.not_le_of_gt pos)
    | cons first rest => exact fun _ counted kept => ⟨counted, kept⟩
  | success =>
    obtain ⟨_, first⟩ := of_decide_eq_true able
    have some : s.queued ≠ [] := by
      rintro none
      rw [none] at first
      cases first
    exact ⟨(paired.complete some).counted, (paired.complete some).kept⟩
  | failure =>
    have past := paired.complete (of_decide_eq_true able).2
    exact ⟨past.counted, past.kept⟩
  | _ => exact same rfl rfl rfl

/-- Nothing is left to write and nothing is scheduled on the loop. -/
def Quiet (s : State) : Prop :=
  s.pendingWriteBuf = [] ∧ s.inflightBufs = [] ∧ s.flushCb = false ∧ s.flushTimeout = false ∧ s.migrateCb = false ∧
    s.resumeTimeout = false

/-- `tryFinishMigrate` runs alone on the loop, and keeps what it has checked. -/
structure Leaving (s : State) : Prop where
  alone : ∀ op ∈ stackAt s.calls 0, op.leaving = true → stackAt s.calls 0 = [op]
  drained : ∀ op ∈ stackAt s.calls 0, op = .leave ∨ op = .detach → s.outstanding = 0 ∧ s.closing = false
  quiet : Op.detach ∈ stackAt s.calls 0 → s.Quiet

theorem leaving_of_mem_new {op : Op} (member : op ∈ m.new) (leaving : op.leaving = true) :
    m = .finishGo ∧ op = .leave ∨ m = .leaveGo ∧ op = .detach := by
  have absurd : m.new.all (fun op => !op.leaving) = true → False := by
    intro none
    have here := List.all_eq_true.mp none op member
    rw [leaving] at here
    cases here
  cases m with
  | finishGo => exact .inl ⟨rfl, List.mem_singleton.mp member⟩
  | leaveGo => exact .inr ⟨rfl, List.mem_singleton.mp member⟩
  | flushClosing after | flushClosed after | flushPlain after | flushSpillNone after | flushSpillSome after =>
    cases after <;> exact (absurd rfl).elim
  | _ => exact (absurd rfl).elim

/-- How an operation of `tryFinishMigrate` comes to the loop's stack: one of its own moves, its callback, or it
was there and the event is of another thread. -/
theorem leaving_of_next {op : Op} (sane : s.Sane) (able : s.enabled cfg e)
    (member : op ∈ stackAt (s.next e).calls 0) (leaving : op.leaving = true) :
    e = .run 0 .finishGo ∧ op = .leave ∨ e = .run 0 .leaveGo ∧ op = .detach ∨
      e = .call .migrateCb ∧ op = .tryFinishMigrate ∨
      op ∈ stackAt s.calls 0 ∧ e.outside = true := by
  have waits : op ∈ stackAt s.calls 0 → s.callsBack = true → False := by
    intro here back
    have below := Op.not_leaving_of_buried (buried_of_callsBack sane back op here)
    rw [leaving] at below
    cases below
  cases e with
  | run i m =>
    obtain ⟨rest, top, _⟩ := enabled_run able
    rcases eq_or_ne i 0 with rfl | other
    · rw [stackAt_next_run top] at member
      rcases List.mem_append.mp member with new | old
      · rcases leaving_of_mem_new new leaving with ⟨rfl, rfl⟩ | ⟨rfl, rfl⟩
        · exact .inl ⟨rfl, rfl⟩
        · exact .inr (.inl ⟨rfl, rfl⟩)
      · have below := sane.buried 0 op
        rw [top, List.tail_cons] at below
        rw [Op.not_leaving_of_buried (below old)] at leaving
        cases leaving
    · rw [stackAt_next_run_of_ne other] at member
      exact .inr (.inr (.inr ⟨member, decide_eq_true other⟩))
  | call c =>
    rw [stackAt_next_call sane.loop] at member
    have absurd : c.new.all (fun op => !op.leaving) = true → False := by
      intro none
      have here := List.all_eq_true.mp none op member
      rw [leaving] at here
      cases here
    cases c with
    | migrateCb => exact .inr (.inr (.inl ⟨rfl, List.mem_singleton.mp member⟩))
    | mail op' =>
      obtain rfl := List.mem_singleton.mp member
      have posted := sane.posted op (of_decide_eq_true (of_decide_eq_true able).2)
      cases op with
      | tryFinishMigrate | leave | detach => cases posted
      | _ => cases leaving
    | _ => exact (absurd rfl).elim
  | reader reqs =>
    rw [stackAt_next_outside sane rfl] at member
    exact .inr (.inr (.inr ⟨member, rfl⟩))
  | answer id r => exact .inr (.inr (.inr ⟨member, rfl⟩))
  | progress | success => exact (waits member (of_decide_eq_true able).1).elim
  | failure =>
    rw [stackAt_next_failure sane.loop] at member
    rcases List.mem_cons.mp member with rfl | member
    · cases leaving
    · exact (waits member (of_decide_eq_true able).1).elim

theorem Quiet.of_own {t : State} (quiet : s.Quiet) (same : t.own = s.own) : t.Quiet := by
  have here : t.own.Quiet := by
    rw [same]
    exact quiet
  exact here

theorem Leaving.next (leaves : s.Leaving) (sane : s.Sane) (balanced : s.Balanced) (able : s.enabled cfg e) :
    (s.next e).Leaving where
  alone op member leaving := by
    have last : ∀ {m : Move}, s.enabled cfg (.run 0 m) = true → m.op.leaving = true →
        stackAt (s.next (.run 0 m)).calls 0 = m.new := by
      intro m able leaving
      obtain ⟨rest, top, _⟩ := enabled_run able
      have only := leaves.alone m.op (mem_stackAt top) leaving
      rw [stackAt_next_run only, List.append_nil]
    rcases leaving_of_next sane able member leaving with ⟨rfl, rfl⟩ | ⟨rfl, rfl⟩ | ⟨rfl, rfl⟩ | ⟨before, outside⟩
    · exact last able rfl
    · exact last able rfl
    · exact stackAt_next_call sane.loop
    · rw [stackAt_next_outside sane outside]
      exact leaves.alone op before leaving
  drained op member which := by
    have leaving : op.leaving = true := by
      rcases which with rfl | rfl <;> rfl
    rcases leaving_of_next sane able member leaving with ⟨rfl, rfl⟩ | ⟨rfl, rfl⟩ | ⟨rfl, rfl⟩ | ⟨before, outside⟩
    · obtain ⟨_, _, guard⟩ := enabled_run able
      obtain ⟨_, opened, zero⟩ := of_decide_eq_true guard
      exact ⟨zero, opened⟩
    · obtain ⟨_, top, _⟩ := enabled_run able
      exact leaves.drained _ (mem_stackAt top) (.inl rfl)
    · rcases which with absurd | absurd <;> cases absurd
    · obtain ⟨zero, opened⟩ := leaves.drained op before which
      have none := not_dispatches_of_outside sane able outside
      refine ⟨outstanding_next_of_zero sane balanced able none zero, ?_⟩
      have same := congrArg State.closing (own_next sane able outside)
      exact same.trans opened
  quiet := by
    intro member
    rcases leaving_of_next sane able member rfl with ⟨_, absurd⟩ | ⟨rfl, _⟩ | ⟨_, absurd⟩ | ⟨before, outside⟩
    · cases absurd
    · obtain ⟨_, _, guard⟩ := enabled_run able
      obtain ⟨buf, bufs⟩ := of_decide_eq_true guard
      exact ⟨buf, bufs, rfl, rfl, rfl, rfl⟩
    · cases absurd
    · exact (leaves.quiet before).of_own (own_next sane able outside)

/-- What holds in every state of a connection. -/
structure Coherent (cfg : Config) (s : State) : Prop where
  sane : s.Sane
  balanced : s.Balanced
  plain : s.Plain cfg
  spilled : s.Spilled
  paired : s.Paired
  leaving : s.Leaving

theorem coherent_start : start.Coherent cfg where
  sane := sane_start
  balanced := rfl
  plain _ := ⟨rfl, rfl, fun _ absurd => nomatch absurd⟩
  spilled := ⟨fun absurd => (absurd rfl).elim, fun absurd => nomatch absurd⟩
  paired := ⟨rfl, rfl⟩
  leaving := by
    refine ⟨fun _ absurd => ?_, fun _ absurd => ?_, fun absurd => ?_⟩ <;> cases absurd

theorem Coherent.next (coherent : s.Coherent cfg) (able : s.enabled cfg e) : (s.next e).Coherent cfg where
  sane := coherent.sane.next able
  balanced := coherent.balanced.next coherent.sane able
  plain := coherent.plain.next coherent.sane able
  spilled := coherent.spilled.next coherent.sane coherent.plain able
  paired := coherent.paired.next able
  leaving := coherent.leaving.next coherent.sane coherent.balanced able

theorem coherent_of_reach (reached : Reach (step cfg) start s) : s.Coherent cfg := by
  refine Reach.invariant (P := fun s => s.Coherent cfg) coherent_start (fun before taken => ?_) reached
  obtain ⟨able, rfl⟩ := step_eq_some taken
  exact before.next able

/-- With the count at zero nothing is in flight and nothing is spilled. -/
theorem Coherent.of_outstanding_eq_zero (coherent : s.Coherent cfg) (zero : s.outstanding = 0) :
    s.engine = [] ∧ s.sendPending = [] ∧ (∀ op ∈ s.calls.flatten ++ s.mail, op.counts = 0) ∧
      (s.closing = false → s.spill = []) := by
  have total := coherent.balanced.outstanding_eq
  have counts : ∀ op ∈ s.calls.flatten ++ s.mail, op.counts = 0 := by
    intro op member
    have here := counts_le_countsIn member
    omega
  refine ⟨List.eq_nil_of_length_eq_zero (by omega), List.eq_nil_of_length_eq_zero (by omega), counts, fun opened => ?_⟩
  by_contra some
  rcases coherent.spilled.batched (coherent.spilled.flagged some) with closing | ⟨op, member, posts⟩
  · rw [opened] at closing
    cases closing
  · have pos := Op.counts_pos_of_posts posts (coherent.sane.filled op member)
    exact Nat.ne_of_gt pos (counts op member)

/-- The connection can leave its loop: no request is in flight, nothing is left to write, and the loop has no
callback of it. -/
structure Quiescent (s : State) : Prop where
  outstanding : s.outstanding = 0
  engine : s.engine = []
  inHand : ∀ op ∈ s.calls.flatten ++ s.mail, op.counts = 0
  pendingWriteBuf : s.pendingWriteBuf = []
  inflightBufs : s.inflightBufs = []
  spill : s.spill = []
  sendPending : s.sendPending = []
  follyWrites : s.follyWrites = 0
  flush : s.flushCb = false ∧ s.flushTimeout = false
  migrate : s.migrateCb = false
  resume : s.resumeTimeout = false

theorem detach_quiescent (reached : Reach (step cfg) start s) (detaches : s.enabled cfg (.run i .detach)) :
    s.Quiescent := by
  have coherent := coherent_of_reach reached
  obtain ⟨rest, top, _⟩ := enabled_run detaches
  obtain rfl := coherent.sane.eq_zero_of_mem (mem_stackAt top) rfl
  have here : Op.detach ∈ stackAt s.calls 0 := mem_stackAt top
  obtain ⟨zero, opened⟩ := coherent.leaving.drained _ here (.inr rfl)
  obtain ⟨buf, bufs, flushCb, flushTimeout, migrate, resume⟩ := coherent.leaving.quiet here
  obtain ⟨engine, pending, counts, spill⟩ := coherent.of_outstanding_eq_zero zero
  have writes : s.follyWrites = 0 := by
    rw [coherent.paired.counted, ← coherent.paired.kept, bufs]
    rfl
  exact ⟨zero, engine, counts, buf, bufs, spill opened, pending, writes, ⟨flushCb, flushTimeout⟩, migrate, resume⟩

/-- A GET whose response the kernel takes in part. The connection is asked to migrate, waits for the batch that
flushes the rest, and leaves. -/
def spilledMigration (r : GetReply) : List Event :=
  let loop := Event.run 0
  let reader := Event.run 1
  [.call .readDataAvailable, loop (.parseDispatch r.id), loop .parseEnd, loop (.settle true), loop (.settledFlush true),
    loop (.flushDirect none), loop (.flushLock none), loop (.flushSpillNone none), loop (.flushBufNone true),
    loop .flushUnlock, loop .drainNone, .reader [r], reader (.directLocked [r]), reader (.take [r] [] []),
    reader (.look [r] [] true), reader (.sendSome [r] [] true 5 true), reader (.lookDone [([r], true)]),
    .call .migrateTo, loop .migrateTo, reader (.unlockHeld [([r], true)]), loop (.lockFor .watch), loop .markWatch,
    loop .unlock, loop .migrateCheck, reader (.recheckNone [([r], true)]), reader (.finishPost [r] []), .call .migrateCb,
    loop .finishWait, .call (.mail (.batch [r])), loop (.batch [r]), loop (.flushDirect (some 1)),
    loop (.flushLock (some 1)), loop (.flushSpillSome (some 1)), .progress 19, .success, loop .leaveWrite,
    loop (.flushBufNone true), loop .flushUnlock, loop .drainNone, loop (.subCheck 1), .call .migrateCb, loop .finishGo,
    loop .leaveGo]

theorem detach_quiescent_spilled : ∃ s, Reach (step ⟨true, 0, 0⟩) start s ∧ s.wire = (⟨7, 0, 0, none⟩ : GetReply).frame ∧
    s.enabled ⟨true, 0, 0⟩ (.run 0 .detach) ∧ s.Quiescent := by
  obtain ⟨s, reached, wire, detaches⟩ : ∃ s, Reach (step ⟨true, 0, 0⟩) start s ∧
      s.wire = (⟨7, 0, 0, none⟩ : GetReply).frame ∧ s.enabled ⟨true, 0, 0⟩ (.run 0 .detach) :=
    exists_reach (spilledMigration ⟨7, 0, 0, none⟩) (by decide +kernel)
  exact ⟨s, reached, wire, detaches, detach_quiescent reached detaches⟩

end State

end FluxKV.Connection.Send
