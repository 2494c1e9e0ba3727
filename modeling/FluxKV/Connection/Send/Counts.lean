import FluxKV.Connection.Send.Calls
import Mathlib.Algebra.BigOperators.Group.List.Basic

/-! # The count of requests in flight

Every request counted in `outstandingRequests_` is with the engine, left in `sendPending_`, or in the hands of
a thread or a posted callback, and so is every extra count. An event moves counts between them and changes the
counter by what comes in and goes out.
-/

namespace FluxKV.Connection.Send

open Machine

variable {cfg : Config} {s : State} {e : Event} {m : Move} {i : ℕ}

/-- The requests of some chunks. -/
def requestsIn (chunks : List Chunk) : ℕ := (chunks.map fun chunk => chunk.1.length).sum

@[simp] theorem requestsIn_append (first second : List Chunk) :
    requestsIn (first ++ second) = requestsIn first + requestsIn second := by
  simp [requestsIn]

@[simp] theorem requestsIn_cons (chunk : Chunk) (chunks : List Chunk) :
    requestsIn (chunk :: chunks) = chunk.1.length + requestsIn chunks := by
  simp [requestsIn]

@[simp] theorem requestsIn_nil : requestsIn [] = 0 := rfl

theorem length_le_requestsIn {chunk : Chunk} {chunks : List Chunk} (member : chunk ∈ chunks) :
    chunk.1.length ≤ requestsIn chunks := by
  obtain ⟨before, after, rfl⟩ := List.append_of_mem member
  rw [requestsIn_append, requestsIn_cons]
  omega

/-- The counts an operation has in hand: requests, extra counts, and counts it is about to give back. -/
def Op.counts : Op → ℕ
  | sendDirect reqs | hold reqs | batch reqs => reqs.length
  | loadPending reqs | casPending reqs _ => reqs.length + 1
  | retry | respond _ => 1
  | take unsent chunks | look unsent chunks | send unsent chunks _ => unsent.length + requestsIn chunks
  | unlockHeld chunks | recheck chunks | relock chunks | finish chunks => requestsIn chunks
  | release k | check k | load k | lower k _ | subDrain k => k
  | flush after | flushLock after | flushSpill after => after.getD 0
  | _ => 0

/-- The counts some operations have in hand. -/
def countsIn (ops : List Op) : ℕ := (ops.map Op.counts).sum

@[simp] theorem countsIn_nil : countsIn [] = 0 := rfl

@[simp] theorem countsIn_cons (op : Op) (ops : List Op) : countsIn (op :: ops) = op.counts + countsIn ops := by
  simp [countsIn]

@[simp] theorem countsIn_append (first second : List Op) :
    countsIn (first ++ second) = countsIn first + countsIn second := by
  simp [countsIn]

theorem countsIn_perm {first second : List Op} (turned : first.Perm second) : countsIn first = countsIn second :=
  (turned.map Op.counts).sum_eq

theorem counts_le_countsIn {op : Op} {ops : List Op} (member : op ∈ ops) : op.counts ≤ countsIn ops := by
  rw [countsIn_perm (List.perm_cons_erase member), countsIn_cons]
  exact Nat.le_add_right _ _

@[simp] theorem countsIn_released (after : Option ℕ) : countsIn (Move.released after) = after.getD 0 := by
  cases after <;> rfl

namespace State

/-- The counts that are with threads. -/
def inHand (s : State) : ℤ := s.outstanding - s.engine.length - s.sendPending.length - countsIn s.mail

/-- The counter is the number of requests in flight and extra counts. -/
def Balanced (s : State) : Prop := s.inHand = countsIn s.calls.flatten

theorem inHand_post (s : State) (op : Op) : (s.post op).inHand = s.inHand - op.counts := by
  simp only [inHand, post, countsIn_append, countsIn_cons, countsIn_nil, Nat.cast_add, Nat.cast_zero]
  omega

/-- A chunk is written: its requests go from the unsent ones to the chunks. -/
theorem counts_chunk (unsent : List GetReply) (chunks : List Chunk) (post : Bool) :
    countsIn [.look (unsent.drop kMaxPerSend) (chunks ++ [(unsent.take kMaxPerSend, post)])] =
      unsent.length + requestsIn chunks := by
  have split := congrArg List.length (List.take_append_drop kMaxPerSend unsent)
  rw [List.length_append] at split
  simp only [countsIn_cons, countsIn_nil, Op.counts, requestsIn_append, requestsIn_cons, requestsIn_nil]
  omega

theorem inHand_move (guard : m.guard cfg s i = true) :
    (m.effect s i).inHand + m.op.counts = s.inHand + countsIn m.new := by
  cases m with
  | hold reqs | checkFast k | subMore k | subDelete k | subCheck k | parseRefuse r | parseDispatch id =>
    simp only [Move.effect, Move.op, Move.new, inHand, deleteThis, scheduleMigrateCheck, countsIn_cons, countsIn_nil,
      Op.counts, List.length_append, List.length_singleton]
    omega
  | casPush reqs old =>
    simp only [Move.effect, Move.op, Move.new, inHand, countsIn_cons, countsIn_nil, Op.counts, List.length_append]
    omega
  | take unsent chunks left =>
    obtain rfl : s.sendPending = left := of_decide_eq_true guard
    simp only [Move.effect, Move.op, Move.new, inHand, countsIn_cons, countsIn_nil, Op.counts, List.length_append,
      List.length_nil]
    omega
  | sendAll unsent chunks | sendSome unsent chunks | sendBroken unsent chunks | sendNone unsent chunks =>
    rw [Move.new, counts_chunk]
    rfl
  | finishPost reqs chunks =>
    rw [Move.effect, inHand_post]
    simp only [Move.op, Move.new, countsIn_cons, countsIn_nil, Op.counts, requestsIn_cons]
    omega
  | finishDirect reqs chunks =>
    simp only [Move.effect, Move.op, Move.new, countsIn_cons, countsIn_nil, Op.counts, requestsIn_cons]
    omega
  | lowerCas k v =>
    obtain ⟨_, _, rfl⟩ := of_decide_eq_true guard
    simp only [Move.effect, Move.op, Move.new, Move.lowered, inHand, countsIn_cons, countsIn_nil, Op.counts]
    omega
  | lowerPost k v =>
    rw [Move.effect, inHand_post]
    simp only [Move.op, Move.new, countsIn_nil, Op.counts]
    omega
  | flushClosing after | flushClosed after | flushPlain after | flushSpillNone after | flushSpillSome after =>
    simp only [Move.op, Move.new, countsIn_cons, countsIn_released, Op.counts, Nat.zero_add]
    rfl
  | lookDone | relockLocked | checkSlow =>
    simp only [Move.op, Move.new, countsIn_cons, countsIn_nil, Op.counts, List.length_nil, Nat.zero_add]
    rfl
  | closeDelete =>
    rw [Move.effect, inHand_post]
    simp only [Move.op, Move.new, Op.counts, countsIn_nil, Nat.cast_zero, sub_zero]
  | detach =>
    rw [Move.effect, inHand_post]
    simp only [Move.op, Move.new, Op.counts, countsIn_nil, Nat.cast_zero, sub_zero]
    rfl
  | _ => rfl

theorem inHand_mail {op : Op} (member : op ∈ s.mail) :
    (Call.effect s (.mail op)).inHand = s.inHand + op.counts := by
  have taken := countsIn_perm (List.perm_cons_erase member)
  rw [countsIn_cons] at taken
  simp only [Call.effect, inHand]
  omega

theorem Balanced.next (balanced : s.Balanced) (sane : s.Sane) (able : s.enabled cfg e) :
    (s.next e).Balanced := by
  obtain ⟨others, before, after⟩ := calls_next_perm able sane.loop
  have kept : (s.next e).inHand + countsIn e.old = s.inHand + countsIn e.new := by
    cases e with
    | run i m =>
      obtain ⟨_, _, guard⟩ := enabled_run able
      simp only [Event.old, Event.new, countsIn_cons, countsIn_nil, Nat.add_zero]
      exact inHand_move guard
    | call c => cases c with
      | mail op =>
        simp only [Event.old, Event.new, Call.new, countsIn_cons, countsIn_nil, Nat.cast_zero, add_zero]
        exact inHand_mail (of_decide_eq_true (of_decide_eq_true able).2)
      | _ => rfl
    | reader reqs =>
      obtain ⟨_, _, passed⟩ := of_decide_eq_true able
      have taken := (List.subperm_append_diff_self_of_count_le (List.subperm_ext_iff.mp passed)).length_eq
      simp only [List.length_append, List.length_map] at taken
      simp only [State.next, inHand, Event.old, Event.new, countsIn_cons, countsIn_nil, Op.counts]
      omega
    | answer id r =>
      have taken := (List.perm_cons_erase (of_decide_eq_true able : id ∈ s.engine)).length_eq
      rw [State.next, inHand_post]
      simp only [List.length_cons] at taken
      simp only [inHand, Event.old, Event.new, countsIn_nil, Op.counts]
      omega
    | _ => rfl
  rw [Balanced, countsIn_perm after, countsIn_append]
  rw [Balanced, countsIn_perm before, countsIn_append] at balanced
  omega

theorem Balanced.outstanding_eq (balanced : s.Balanced) :
    s.outstanding = (s.engine.length + s.sendPending.length + countsIn (s.calls.flatten ++ s.mail) : ℕ) := by
  simp only [Balanced, inHand] at balanced
  rw [countsIn_append]
  omega

theorem Balanced.counts_le (balanced : s.Balanced) {op : Op} (member : op ∈ s.calls.flatten ++ s.mail) :
    (op.counts : ℤ) ≤ s.outstanding := by
  rw [balanced.outstanding_eq]
  have here := counts_le_countsIn member
  omega

/-- The count stays at zero until a request comes in. -/
theorem outstanding_next_of_zero (sane : s.Sane) (balanced : s.Balanced) (able : s.enabled cfg e)
    (none : e.dispatches = false) (zero : s.outstanding = 0) : (s.next e).outstanding = 0 := by
  cases e with
  | run i m =>
    obtain ⟨rest, top, guard⟩ := enabled_run able
    have member := List.mem_append_left s.mail (mem_flatten_of_stackAt top)
    have counts := balanced.counts_le member
    have filled := sane.filled _ member
    rw [zero] at counts
    show (m.effect s i).outstanding = 0
    cases m with
    | hold reqs =>
      have some := List.length_pos_of_ne_nil filled
      simp only [Move.op, Op.counts] at counts
      omega
    | subMore k | subDelete k | subCheck k =>
      simp only [Move.op, Op.Filled, Op.counts] at counts filled
      omega
    | checkFast k =>
      simp only [Move.op, Op.counts] at counts
      simp only [Move.effect, zero]
      omega
    | lowerCas k v =>
      obtain ⟨_, more, here⟩ := of_decide_eq_true guard
      omega
    | parseDispatch | parseRefuse => cases none
    | _ => exact zero
  | call c => cases c <;> exact zero
  | _ => exact zero

end State

end FluxKV.Connection.Send
