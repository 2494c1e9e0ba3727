import FluxKV.Connection.Send.Closing

/-! # The byte stream of a connection

Readers write to the socket themselves when nothing is spilled or queued, and spill what the kernel did not take.
The loop queues the spill before anything of its own. So the bytes the kernel took, the writes that are queued and
the spill are, one after the other, the frames of the responses written so far. A response handed to the send paths
is written, in the loop's buffer, left in `sendPending_`, or in the hands of a thread.
-/

namespace FluxKV.Connection.Send

open Machine Protocol

variable {cfg : Config} {s : State} {e : Event} {m : Move} {i : ℕ}

namespace Op

/-- The responses that an operation has still to write. -/
def carries : Op → List Reply
  | sendDirect reqs | hold reqs | loadPending reqs | casPending reqs _ => reqs.map .get
  | take unsent _ | look unsent _ | send unsent _ _ => unsent.map .get
  | writeChain r | chainLock r | chainSpill r | chainBuf r _ => [r]
  | _ => []

/-- About to write for a reader. -/
def sends : Op → Bool
  | send _ _ _ => true
  | _ => false

/-- About to hand the socket a write of the loop. -/
def queues : Op → Bool
  | flushBuf _ | chainBuf _ _ => true
  | _ => false

end Op

/-- How often some operations carry a response. -/
def carriedIn (r : Reply) (ops : List Op) : ℕ := (ops.map fun op => op.carries.count r).sum

@[simp] theorem carriedIn_nil (r : Reply) : carriedIn r [] = 0 := rfl

@[simp] theorem carriedIn_cons (r : Reply) (op : Op) (ops : List Op) :
    carriedIn r (op :: ops) = op.carries.count r + carriedIn r ops := by
  simp [carriedIn]

@[simp] theorem carriedIn_append (r : Reply) (first second : List Op) :
    carriedIn r (first ++ second) = carriedIn r first + carriedIn r second := by
  simp [carriedIn]

theorem carriedIn_perm (r : Reply) {first second : List Op} (turned : first.Perm second) :
    carriedIn r first = carriedIn r second :=
  (turned.map _).sum_eq

@[simp] theorem carriedIn_released (r : Reply) (after : Option ℕ) : carriedIn r (Move.released after) = 0 := by
  cases after <;> rfl

theorem carriedIn_eq_count (r : Reply) (ops : List Op) : carriedIn r ops = (ops.flatMap Op.carries).count r := by
  induction ops with
  | nil => rfl
  | cons op rest ih => rw [carriedIn_cons, ih, List.flatMap_cons, List.count_append]

/-- The socket fails, on a write of the loop or of a reader. -/
def Event.fails : Event → Bool
  | failure | run _ (.sendBroken _ _) => true
  | _ => false

namespace State

/-- How often a response was handed over and is neither written nor in one of the buffers. -/
def missing (s : State) (r : Reply) : ℤ :=
  s.handed.count r - s.written.count r - s.buffered.count r - (s.sendPending.map .get).count r

/-- Every response handed over is in one place. -/
def Accounted (s : State) : Prop := s.sendClosed = false → ∀ r, s.missing r = carriedIn r s.calls.flatten

theorem missing_move (guard : m.guard cfg s i = true) (clean : (Event.run i m).fails = false)
    (opened : s.sendClosed = false) (r : Reply) :
    (m.effect s i).missing r + m.op.carries.count r = s.missing r + carriedIn r m.new := by
  have split : ∀ unsent : List GetReply, (unsent.map Reply.get).count r =
      ((unsent.take kMaxPerSend).map Reply.get).count r + ((unsent.drop kMaxPerSend).map Reply.get).count r := by
    intro unsent
    rw [← List.count_append, ← List.map_append, List.take_append_drop]
  cases m with
  | casPush reqs old =>
    simp only [Move.effect, Move.op, Move.new, missing, carriedIn_cons, carriedIn_nil, Op.carries, List.map_append,
      List.count_append, List.count_nil]
    omega
  | take unsent chunks left =>
    obtain rfl : s.sendPending = left := of_decide_eq_true guard
    simp only [Move.effect, Move.op, Move.new, missing, carriedIn_cons, carriedIn_nil, Op.carries, List.map_append,
      List.count_append, List.map_nil, List.count_nil]
    omega
  | sendAll unsent chunks | sendSome unsent chunks clear sent post =>
    simp only [Move.effect, Move.op, Move.new, missing, carriedIn_cons, carriedIn_nil, Op.carries, List.count_append,
      split unsent]
    omega
  | sendBroken => cases clean
  | sendNone unsent chunks clear =>
    have closed : s.sendClosed = true := guard
    rw [opened] at closed
    cases closed
  | flushBufSome | chainBuf =>
    simp only [Move.effect, Move.op, Move.new, missing, write, carriedIn_cons, carriedIn_nil, Op.carries,
      List.count_append, List.count_nil]
    omega
  | respondOpen r' | parseServe r' | parseCached r' | parseBuilt r' =>
    simp only [Move.effect, Move.op, Move.new, missing, carriedIn_cons, carriedIn_nil, Op.carries, List.count_append,
      List.count_nil]
    omega
  | flushClosing after | flushClosed after | flushPlain after | flushSpillNone after | flushSpillSome after =>
    simp only [Move.new, carriedIn_cons, carriedIn_released]
    rfl
  | chainSpillSome r' =>
    simp only [Move.op, Move.new, carriedIn_cons, carriedIn_nil, Op.carries, List.count_nil, Nat.zero_add]
    rfl
  | _ => rfl

theorem Accounted.next (accounted : s.Accounted) (sane : s.Sane) (able : s.enabled cfg e)
    (clean : e.fails = false) : (s.next e).Accounted := by
  intro closed r
  have opened : s.sendClosed = false := by
    by_contra marked
    rw [sendClosed_next (Bool.of_not_eq_false marked)] at closed
    cases closed
  obtain ⟨others, before, after⟩ := calls_next_perm able sane.loop
  have kept : (s.next e).missing r + carriedIn r e.old = s.missing r + carriedIn r e.new := by
    cases e with
    | run i m =>
      obtain ⟨_, _, guard⟩ := enabled_run able
      simp only [Event.old, Event.new, carriedIn_cons, carriedIn_nil, Nat.add_zero]
      exact missing_move guard clean opened r
    | call c => cases c with
      | mail op =>
        have posted := sane.posted op (of_decide_eq_true (of_decide_eq_true able).2)
        cases op with
        | respond | batch | subDrain | delete | finishAttach => rfl
        | _ => cases posted
      | _ => rfl
    | reader reqs =>
      simp only [State.next, missing, Event.old, Event.new, carriedIn_cons, carriedIn_nil, Op.carries, List.count_append]
      omega
    | failure => cases clean
    | _ => rfl
  have here := accounted opened r
  rw [carriedIn_perm r before, carriedIn_append] at here
  rw [carriedIn_perm r after, carriedIn_append]
  omega

/-- What the writers keep between them while the socket does not fail. -/
structure Streamed (cfg : Config) (s : State) : Prop where
  /-- Without the mutex the loop writes alone. -/
  unlocked : ∀ op ∈ s.calls.flatten ++ s.mail, op.queues = true → op.holding = false → cfg.directSend = false
  /-- A write of the loop is interrupted by the socket alone. -/
  writing : (stackAt s.calls 0).Pairwise fun above below => below.queues = true → above = .inWrite
  /-- A reader that found the way free still finds it free. -/
  clear : ∀ unsent chunks, Op.send unsent chunks true ∈ s.calls.flatten → s.spill = [] ∧ s.queued = []
  /-- The loop writes nothing of its own before the spill. -/
  flushed : ∀ op ∈ s.calls.flatten, op.queues = true → s.spill = []
  bytes : s.sendClosed = false → s.wire ++ s.queued.flatten ++ s.spill = framesOf s.written
  buffer : s.pendingWriteBuf = framesOf s.buffered
  accounted : s.Accounted

theorem streamed_start : start.Streamed cfg where
  unlocked _ absurd := nomatch absurd
  writing := .nil
  clear _ _ absurd := nomatch absurd
  flushed _ absurd := nomatch absurd
  bytes _ := rfl
  buffer := rfl
  accounted _ _ := rfl

theorem Streamed.unlocked_next (streamed : s.Streamed cfg) (sane : s.Sane) (able : s.enabled cfg e) :
    ∀ op ∈ (s.next e).calls.flatten ++ (s.next e).mail, op.queues = true → op.holding = false →
      cfg.directSend = false := by
  refine forall_ops_next able sane.loop streamed.unlocked fun before => ?_
  have none : ∀ {ops : List Op}, ops.all (fun op => !op.queues || op.holding) = true → ∀ op ∈ ops, op.queues = true →
      op.holding = false → cfg.directSend = false := by
    intro ops all op member queues free
    have here := List.all_eq_true.mp all op member
    rw [queues, free] at here
    cases here
  cases e with
  | run i m =>
    obtain ⟨_, _, guard⟩ := enabled_run able
    cases m with
    | flushPlain after =>
      have unset := Bool.eq_false_of_not_eq_true' (Bool.and_eq_true_iff.mp guard).2
      exact fun _ _ _ _ => unset
    | chainPlain r =>
      have unset : cfg.directSend = false := Bool.eq_false_of_not_eq_true' guard
      exact fun _ _ _ _ => unset
    | flushClosing after | flushClosed after | flushSpillNone after | flushSpillSome after =>
      cases after <;> exact none rfl
    | _ => exact none rfl
  | call c => cases c <;> exact none rfl
  | _ => exact none rfl

theorem pairwise_of_not_queues {ops : List Op} (none : ops.tail.all (fun op => !op.queues) = true) :
    ops.Pairwise fun above below => below.queues = true → above = .inWrite := by
  cases ops with
  | nil => exact .nil
  | cons op rest =>
    have absurd : ∀ op ∈ rest, op.queues = true → False := by
      intro op member queues
      have here := List.all_eq_true.mp none op member
      rw [queues] at here
      cases here
    refine List.pairwise_cons.mpr ⟨fun below member queues => (absurd below member queues).elim, ?_⟩
    exact List.pairwise_of_forall_mem_list fun _ _ below member queues => (absurd below member queues).elim

theorem Streamed.writing_next (streamed : s.Streamed cfg) (sane : s.Sane) (able : s.enabled cfg e)
    (clean : e.fails = false) :
    (stackAt (s.next e).calls 0).Pairwise fun above below => below.queues = true → above = .inWrite := by
  cases e with
  | run i m =>
    obtain ⟨rest, top, _⟩ := enabled_run able
    rcases eq_or_ne i 0 with rfl | other
    · have writing := streamed.writing
      rw [top] at writing
      obtain ⟨above, below⟩ := List.pairwise_cons.mp writing
      rw [stackAt_next_run top]
      refine List.pairwise_append.mpr ⟨?_, below, fun op new op' old queues => ?_⟩
      · cases m with
        | flushSpillSome after =>
          exact List.pairwise_cons.mpr ⟨fun _ _ _ => rfl, pairwise_of_not_queues (by cases after <;> rfl)⟩
        | chainSpillSome r => exact List.pairwise_cons.mpr ⟨fun _ _ _ => rfl, List.pairwise_singleton _ _⟩
        | flushClosing after | flushClosed after | flushPlain after | flushSpillNone after =>
          cases after <;> exact pairwise_of_not_queues rfl
        | _ => exact pairwise_of_not_queues rfl
      · have inside := above op' old queues
        cases m with
        | leaveWrite => cases new
        | _ => cases inside
    · rw [stackAt_next_run_of_ne other]
      exact streamed.writing
  | call c =>
    rw [stackAt_next_call sane.loop]
    cases c with
    | mail op => exact List.pairwise_singleton _ _
    | _ => exact pairwise_of_not_queues rfl
  | reader reqs =>
    rw [stackAt_next_outside sane rfl]
    exact streamed.writing
  | failure => cases clean
  | _ => exact streamed.writing

theorem Coherent.spill_of_plain (coherent : s.Coherent cfg) (unset : cfg.directSend = false) : s.spill = [] := by
  by_contra some
  have posted := coherent.spilled.flagged some
  rw [(coherent.plain unset).2.1] at posted
  cases posted

/-- While a thread is about to write for the loop, no reader is about to write. -/
theorem Streamed.no_send_of_queues {unsent : List GetReply} {chunks : List Chunk} {clear : Bool} {rest : List Op}
    (streamed : s.Streamed cfg) (coherent : s.Coherent cfg) (top : stackAt s.calls i = m.op :: rest)
    (queues : m.op.queues = true ∨ m.op.holding = true)
    (member : Op.send unsent chunks clear ∈ (s.calls.set i rest).flatten) : False := by
  cases locked : m.op.holding with
  | true =>
    have inside := coherent.sane.mem_rest_of_holding top locked member rfl
    have below := coherent.sane.buried i
    rw [top, List.tail_cons] at below
    cases below _ inside
  | false =>
    have queues : m.op.queues = true := by
      rcases queues with queues | absurd
      · exact queues
      · rw [locked] at absurd
        cases absurd
    have unset := streamed.unlocked _ (List.mem_append_left _ (mem_flatten_of_stackAt top)) queues locked
    have before := (flatten_perm_of_stackAt top).symm.subset (List.mem_cons_of_mem _ member)
    cases (coherent.plain unset).2.2 _ (List.mem_append_left _ before)

/-- While a reader is about to write, the loop is not. -/
theorem Streamed.no_queues_of_send {op : Op} {unsent : List GetReply} {chunks : List Chunk} {clear : Bool}
    {rest : List Op} (streamed : s.Streamed cfg) (coherent : s.Coherent cfg)
    (top : stackAt s.calls i = .send unsent chunks clear :: rest) (member : op ∈ (s.calls.set i rest).flatten)
    (queues : op.queues = true) : False := by
  have here := List.mem_append_left s.mail (mem_flatten_of_stackAt top)
  cases locked : op.holding with
  | true =>
    have inside := coherent.sane.mem_rest_of_holding top rfl member locked
    have below : op ∈ stackAt s.calls i := by
      rw [top]
      exact List.mem_cons_of_mem _ inside
    have loop : op.direct = false := by
      cases op with
      | flushBuf | chainBuf => rfl
      | _ => cases queues
    obtain rfl := coherent.sane.eq_zero_of_mem below loop
    have writing := streamed.writing
    rw [top] at writing
    cases List.rel_of_pairwise_cons writing inside queues
  | false =>
    have before := (flatten_perm_of_stackAt top).symm.subset (List.mem_cons_of_mem _ member)
    have unset := streamed.unlocked op (List.mem_append_left _ before) queues locked
    cases (coherent.plain unset).2.2 _ here

theorem mem_set_of_mem_others {op : Op} {rest others : List Op} (top : stackAt s.calls i = m.op :: rest)
    (split : s.calls.flatten.Perm ([m.op] ++ others)) (member : op ∈ others) : op ∈ (s.calls.set i rest).flatten := by
  have same := (flatten_perm_of_stackAt top).symm.trans split
  exact ((List.perm_cons _).mp same).symm.subset member

/-- A reader is about to write only after it has looked. -/
theorem send_mem_new {unsent : List GetReply} {chunks : List Chunk} {clear : Bool} (sane : s.Sane)
    (able : s.enabled cfg e) (member : Op.send unsent chunks clear ∈ e.new) :
    ∃ i, e = .run i (.look unsent chunks clear) := by
  have absurd : e.new.all (fun op => !op.sends) = true → False :=
    fun none => by cases List.all_eq_true.mp none _ member
  cases e with
  | run i m => cases m with
    | look unsent' chunks' clear' =>
      cases List.mem_singleton.mp member
      exact ⟨i, rfl⟩
    | flushClosing after | flushClosed after | flushPlain after | flushSpillNone after | flushSpillSome after =>
      cases after <;> exact (absurd rfl).elim
    | _ => exact (absurd rfl).elim
  | call c => cases c with
    | mail op =>
      cases List.mem_singleton.mp member
      cases sane.posted _ (of_decide_eq_true (of_decide_eq_true able).2)
    | _ => exact (absurd rfl).elim
  | _ => exact (absurd rfl).elim

/-- A reader that found the way free still finds it free: who could block it needs the mutex. -/
theorem Streamed.clear_next {unsent : List GetReply} {chunks : List Chunk} (streamed : s.Streamed cfg)
    (coherent : s.Coherent cfg) (able : s.enabled cfg e) (clean : e.fails = false)
    (member : Op.send unsent chunks true ∈ (s.next e).calls.flatten) :
    (s.next e).spill = [] ∧ (s.next e).queued = [] := by
  obtain ⟨others, first, second⟩ := calls_next_perm able coherent.sane.loop
  rcases List.mem_append.mp (second.subset member) with new | other
  · obtain ⟨i, rfl⟩ := send_mem_new coherent.sane able new
    obtain ⟨_, _, guard⟩ := enabled_run able
    obtain ⟨spill, writes⟩ := of_decide_eq_true (of_decide_eq_true guard).2.symm
    rw [coherent.paired.counted] at writes
    exact ⟨spill, List.eq_nil_of_length_eq_zero (Int.ofNat.inj writes)⟩
  · have free := streamed.clear _ _ (first.symm.subset (List.mem_append_right _ other))
    cases e with
    | run i m =>
      obtain ⟨rest, top, _⟩ := enabled_run able
      have elsewhere := mem_set_of_mem_others top first other
      show (m.effect s i).spill = [] ∧ (m.effect s i).queued = []
      cases m with
      | sendSome | flushSpillSome | chainSpillSome =>
        exact (streamed.no_send_of_queues coherent top (.inr rfl) elsewhere).elim
      | flushBufSome | chainBuf => exact (streamed.no_send_of_queues coherent top (.inl rfl) elsewhere).elim
      | markClose => exact ⟨rfl, free.2⟩
      | _ => exact free
    | call c => cases c <;> exact free
    | progress n =>
      obtain ⟨_, pos, inside⟩ := of_decide_eq_true able
      rw [free.2] at inside
      exact absurd inside (Nat.not_le_of_gt pos)
    | success => exact ⟨free.1, congrArg List.tail free.2⟩
    | failure => cases clean
    | _ => exact free

theorem Streamed.flushed_next (streamed : s.Streamed cfg) (coherent : s.Coherent cfg) (able : s.enabled cfg e)
    (clean : e.fails = false) {op : Op} (member : op ∈ (s.next e).calls.flatten) (queues : op.queues = true) :
    (s.next e).spill = [] := by
  obtain ⟨others, first, second⟩ := calls_next_perm able coherent.sane.loop
  have absurd : op ∈ e.new → e.new.all (fun op => !op.queues) = true → False := by
    intro member none
    have here := List.all_eq_true.mp none op member
    rw [queues] at here
    cases here
  rcases List.mem_append.mp (second.subset member) with new | other
  · cases e with
    | run i m =>
      obtain ⟨_, _, guard⟩ := enabled_run able
      cases m with
      | flushSpillSome | chainSpillSome => rfl
      | flushSpillNone | chainSpillNone => exact of_decide_eq_true guard
      | flushPlain =>
        exact coherent.spill_of_plain (Bool.eq_false_of_not_eq_true' (Bool.and_eq_true_iff.mp guard).2)
      | chainPlain => exact coherent.spill_of_plain (Bool.eq_false_of_not_eq_true' guard)
      | flushClosing after | flushClosed after => cases after <;> exact (absurd new rfl).elim
      | _ => exact (absurd new rfl).elim
    | call c => cases c with
      | mail op' =>
        obtain rfl := List.mem_singleton.mp new
        have posted := coherent.sane.posted op (of_decide_eq_true (of_decide_eq_true able).2)
        cases op with
        | flushBuf | chainBuf => cases posted
        | _ => cases queues
      | _ => exact (absurd new rfl).elim
    | _ => exact (absurd new rfl).elim
  · have flushed := streamed.flushed op (first.symm.subset (List.mem_append_right _ other)) queues
    cases e with
    | run i m =>
      obtain ⟨rest, top, _⟩ := enabled_run able
      show (m.effect s i).spill = []
      cases m with
      | sendSome unsent chunks clear sent post =>
        have elsewhere := mem_set_of_mem_others top first other
        exact (streamed.no_queues_of_send coherent top elsewhere queues).elim
      | flushSpillSome | chainSpillSome | markClose => rfl
      | _ => exact flushed
    | call c => cases c <;> exact flushed
    | _ => exact flushed

/-- A chunk goes to the kernel and to the spill as the frames of its responses. -/
theorem take_append_unsent (reqs : List GetReply) (sent : ℕ) :
    (iovOf reqs).flatten.take sent ++ unsent (iovOf reqs) sent = framesOf (reqs.map .get) := by
  rw [unsent_eq_drop, List.take_append_drop, iovOf_flatten]

theorem Streamed.bytes_next (streamed : s.Streamed cfg) (able : s.enabled cfg e)
    (clean : e.fails = false) (closed : (s.next e).sendClosed = false) :
    (s.next e).wire ++ (s.next e).queued.flatten ++ (s.next e).spill = framesOf (s.next e).written := by
  have opened : s.sendClosed = false := by
    by_contra marked
    rw [sendClosed_next (Bool.of_not_eq_false marked)] at closed
    cases closed
  have bytes := streamed.bytes opened
  cases e with
  | run i m =>
    obtain ⟨rest, top, guard⟩ := enabled_run able
    have here := mem_flatten_of_stackAt top
    change (m.effect s i).sendClosed = false at closed
    show (m.effect s i).wire ++ (m.effect s i).queued.flatten ++ (m.effect s i).spill = framesOf (m.effect s i).written
    cases m with
    | sendAll unsent chunks =>
      obtain ⟨spill, queued⟩ := streamed.clear _ _ here
      simp only [Move.effect, framesOf_append, ← iovOf_flatten, ← bytes, spill, queued,
        List.flatten_nil, List.append_nil]
    | sendSome unsent chunks clear sent post =>
      obtain ⟨_, _, none, _⟩ := of_decide_eq_true guard
      simp only [Move.effect, framesOf_append, ← take_append_unsent _ sent, ← bytes]
      cases clear with
      | true =>
        obtain ⟨spill, queued⟩ := streamed.clear _ _ here
        simp only [spill, queued, List.flatten_nil, List.append_nil, List.nil_append, List.append_assoc]
      | false =>
        obtain rfl := none rfl
        simp only [List.take_zero, List.append_nil, List.nil_append, List.append_assoc]
    | flushSpillSome | chainSpillSome =>
      simp only [Move.effect, write, ← bytes, List.flatten_append, List.flatten_singleton,
        List.append_nil, List.append_assoc]
    | flushBufSome locked =>
      have spill := streamed.flushed _ here rfl
      simp only [Move.effect, write, framesOf_append, ← bytes, ← streamed.buffer, spill,
        List.flatten_append, List.flatten_singleton, List.append_nil, List.append_assoc]
    | chainBuf r locked =>
      have spill := streamed.flushed _ here rfl
      simp only [Move.effect, write, framesOf_append, framesOf_singleton, ← bytes, spill,
        List.flatten_append, List.flatten_singleton, List.append_nil, List.append_assoc]
    | markClose => cases closed
    | _ => exact bytes
  | call c => cases c <;> exact bytes
  | progress n =>
    obtain ⟨_, pos, inside⟩ := of_decide_eq_true able
    revert inside bytes
    simp only [State.next]
    cases s.queued with
    | nil => exact fun _ inside => absurd inside (Nat.not_le_of_gt pos)
    | cons first rest =>
      intro bytes _
      simp only [List.headD_cons, List.tail_cons, List.flatten_cons, ← bytes, List.append_assoc,
        ← List.append_assoc (first.take n), List.take_append_drop]
  | success =>
    obtain ⟨_, first⟩ := of_decide_eq_true able
    obtain ⟨rest, queued⟩ := List.head?_eq_some_iff.mp first
    rw [queued, List.flatten_cons, List.nil_append] at bytes
    simp only [State.next, writeSuccess, complete, queued, List.tail_cons]
    exact bytes
  | failure => cases clean
  | _ => exact bytes

theorem Streamed.buffer_next (streamed : s.Streamed cfg) :
    (s.next e).pendingWriteBuf = framesOf (s.next e).buffered := by
  have buffer := streamed.buffer
  cases e with
  | run i m =>
    show (m.effect s i).pendingWriteBuf = framesOf (m.effect s i).buffered
    cases m with
    | flushBufSome => rfl
    | respondOpen r | parseServe r | parseCached r => simp only [Move.effect, framesOf_append, framesOf_singleton, buffer]
    | _ => exact buffer
  | call c => cases c <;> exact buffer
  | _ => exact buffer

theorem Streamed.next (streamed : s.Streamed cfg) (coherent : s.Coherent cfg) (able : s.enabled cfg e)
    (clean : e.fails = false) : (s.next e).Streamed cfg where
  unlocked := streamed.unlocked_next coherent.sane able
  writing := streamed.writing_next coherent.sane able clean
  clear _ _ := streamed.clear_next coherent able clean
  flushed _ := streamed.flushed_next coherent able clean
  bytes := streamed.bytes_next able clean
  buffer := streamed.buffer_next
  accounted := streamed.accounted.next coherent.sane able clean

theorem streamed_of_reach (reached : Reach (restrict (fun _ e => e.fails = false) (step cfg)) start s) :
    s.Streamed cfg := by
  have both : s.Coherent cfg ∧ s.Streamed cfg := by
    refine Reach.invariant (P := fun s => s.Coherent cfg ∧ s.Streamed cfg) ⟨coherent_start, streamed_start⟩ ?_ reached
    intro s e t before taken
    obtain ⟨clean, taken⟩ := restrict_eq_some.mp taken
    obtain ⟨able, rfl⟩ := step_eq_some taken
    exact ⟨before.1.next able, before.2.next before.1 able clean⟩
  exact both.2

theorem stream_of_frames (reached : Reach (restrict (fun _ e => e.fails = false) (step cfg)) start s)
    (opened : s.sendClosed = false) :
    s.wire ++ s.queued.flatten ++ s.spill = framesOf s.written ∧ s.pendingWriteBuf = framesOf s.buffered ∧
      s.handed.Perm (s.written ++ s.buffered ++ s.sendPending.map .get ++ s.calls.flatten.flatMap Op.carries) := by
  have streamed := streamed_of_reach reached
  refine ⟨streamed.bytes opened, streamed.buffer, List.perm_iff_count.mpr fun r => ?_⟩
  have here := streamed.accounted opened r
  rw [carriedIn_eq_count, missing] at here
  simp only [List.count_append]
  omega

/-- The kernel takes five bytes of a GET response, and a bootstrap response is written before the batch that
flushes the rest. -/
def spilledBootstrap (r : GetReply) (built : Reply) : List Event :=
  let loop := Event.run 0
  let reader := Event.run 1
  [.call .readDataAvailable, loop (.parseDispatch r.id), .reader [r], reader (.directLocked [r]),
    reader (.take [r] [] []), reader (.look [r] [] true), loop (.parseBuilt built), loop (.chainDirect built),
    reader (.sendSome [r] [] true 5 true), reader (.lookDone [([r], true)]), reader (.unlockHeld [([r], true)]),
    loop (.chainLock built), loop (.chainSpillSome built), .progress 10, loop .leaveWrite, loop (.chainBuf built true),
    .progress 9, .success, .progress 2, loop .leaveWrite, loop .chainUnlock, loop .drainNone]

theorem stream_of_frames_spilled : ∃ s, Reach (restrict (fun _ e => e.fails = false) (step ⟨true, 0, 0⟩)) start s ∧
    s.written = [.get ⟨7, 0, 0, none⟩, .built 9 [1, 2, 3]] ∧ s.queued = [[3]] ∧
    s.wire ++ s.queued.flatten ++ s.spill = framesOf s.written := by
  obtain ⟨s, reached, written, queued, opened⟩ : ∃ s,
      Reach (restrict (fun _ e => e.fails = false) (step ⟨true, 0, 0⟩)) start s ∧
        s.written = [.get ⟨7, 0, 0, none⟩, .built 9 [1, 2, 3]] ∧ s.queued = [[3]] ∧ s.sendClosed = false :=
    exists_reach (spilledBootstrap ⟨7, 0, 0, none⟩ (.built 9 [1, 2, 3])) (by decide +kernel)
  exact ⟨s, reached, written, queued, (stream_of_frames reached opened).1⟩

end State

end FluxKV.Connection.Send
