import FluxKV.Connection.Send.Machine

/-! # Calls in progress

What the threads of a connection have to do is one list up to order, of which an event replaces a part. The
mutex is held by the thread that is inside its locked sections. Readers run only the direct send path, the
loop runs the rest, and an operation that works on what the loop alone touches is on top of its stack.
-/

namespace FluxKV.Connection.Send

open Machine

variable {cfg : Config} {s : State} {e : Event} {m : Move} {i : ℕ}

namespace Op

/-- Inside a section locked by `sendMu_`. -/
def holding : Op → Bool
  | take _ _ | look _ _ | send _ _ _ | unlockHeld _ | check _ | unlock | flushSpill _ | chainSpill _ | mark _ => true
  | flushBuf locked | flushEnd locked | chainBuf _ locked | chainEnd locked => locked
  | _ => false

/-- Part of the direct send path, which readers run. -/
def direct : Op → Bool
  | sendDirect _ | hold _ | loadPending _ | casPending _ _ | retry | take _ _ | look _ _ | send _ _ _ | unlockHeld _
  | recheck _ | relock _ | finish _ | release _ | check _ | unlock | load _ | lower _ _ => true
  | _ => false

/-- What is posted to the loop. -/
def posted : Op → Bool
  | respond _ | batch _ | subDrain _ | delete | finishAttach => true
  | _ => false

/-- What can be below the top of a stack. -/
def buried : Op → Bool
  | release _ | finish _ | load _ | subDrain _ | flushBuf _ | flushEnd _ | chainBuf _ _ | chainEnd _ | inWrite | inClose
  | drain | closeSocket | closeCheck _ | migrateCheck | resumeRead | parse | settle _ => true
  | _ => false

/-- Responses and counts are passed on only if there are any. -/
def Filled : Op → Prop
  | sendDirect reqs | hold reqs | loadPending reqs | casPending reqs _ | batch reqs => reqs ≠ []
  | take _ chunks | look _ chunks | unlockHeld chunks | recheck chunks | relock chunks | finish chunks =>
    ∀ chunk ∈ chunks, chunk.1 ≠ []
  | send unsent chunks _ => unsent ≠ [] ∧ ∀ chunk ∈ chunks, chunk.1 ≠ []
  | subDrain k => 0 < k
  | flush after | flushLock after | flushSpill after => ∀ k ∈ after, 0 < k
  | _ => True

/-- Carries no responses and no counts that have to be there. -/
def light : Op → Bool
  | sendDirect _ | hold _ | loadPending _ | casPending _ _ | batch _ | take _ _ | look _ _ | unlockHeld _ | recheck _
  | relock _ | finish _ | send _ _ _ | subDrain _ | flush _ | flushLock _ | flushSpill _ => false
  | _ => true

theorem filled_of_light {ops : List Op} (light : ops.all Op.light = true) : ∀ op ∈ ops, op.Filled := by
  intro op member
  have here := List.all_eq_true.mp light op member
  cases op <;> trivial

end Op

namespace Event

/-- The operation that an event takes off a stack. -/
def old : Event → List Op
  | run _ m => [m.op]
  | _ => []

/-- The operations that it puts there. -/
def new : Event → List Op
  | run _ m => m.new
  | call c => c.new
  | reader reqs => [.sendDirect reqs]
  | failure => [.destroy]
  | _ => []

/-- The callbacks that it posts. -/
def posted : Event → List Op
  | run _ (.finishPost reqs _) => [.batch reqs]
  | run _ (.lowerPost k _) => [.subDrain k]
  | run _ .closeDelete => [.delete]
  | run _ .detach => [.finishAttach]
  | answer _ r => [.respond r]
  | _ => []

/-- The posted callback that it starts. -/
def started : Event → List Op
  | call (.mail op) => [op]
  | _ => []

/-- The operations that are there only because of the event. -/
def fresh : Event → List Op
  | call (.mail _) => []
  | e => e.new ++ e.posted

/-- A request comes in. -/
def dispatches : Event → Bool
  | run _ (.parseDispatch _) | run _ (.parseRefuse _) => true
  | _ => false

/-- Neither the loop nor the socket takes part. -/
def outside : Event → Bool
  | run i _ => i ≠ 0
  | reader _ | answer _ _ => true
  | _ => false

end Event

namespace Move

theorem mem_released {after : Option ℕ} {op : Op} (member : op ∈ released after) :
    ∃ k, after = some k ∧ op = .subDrain k := by
  cases after with
  | none => cases member
  | some k => exact ⟨k, rfl, List.mem_singleton.mp member⟩

@[simp] theorem countP_released (after : Option ℕ) : (released after).countP Op.holding = 0 := by
  cases after <;> rfl

/-- The direct send path stays on itself. -/
theorem direct_of_mem_new (reader : m.op.direct = true) : ∀ op ∈ m.new, op.direct = true := by
  apply List.all_eq_true.mp
  cases m <;> first | rfl | cases reader

/-- What a move leaves below the top can be there. -/
theorem buried_of_mem_new (m : Move) : ∀ op ∈ m.new.tail, op.buried = true := by
  apply List.all_eq_true.mp
  cases m with
  | flushClosing after | flushClosed after | flushPlain after | flushSpillNone after | flushSpillSome after =>
    cases after <;> rfl
  | _ => rfl

end Move

theorem Move.effect_calls (m : Move) (s : State) (i : ℕ) : (m.effect s i).calls = s.calls := by
  cases m <;> rfl

theorem Call.effect_calls (c : Call) (s : State) : (c.effect s).calls = s.calls := by
  cases c <;> rfl

namespace State

theorem enabled_run (able : s.enabled cfg (.run i m)) :
    ∃ rest, stackAt s.calls i = m.op :: rest ∧ m.guard cfg s i = true := by
  obtain ⟨top, guard⟩ := of_decide_eq_true able
  obtain ⟨rest, stack⟩ := List.head?_eq_some_iff.mp top
  exact ⟨rest, stack, guard⟩

theorem next_run_calls {rest : List Op} (top : stackAt s.calls i = m.op :: rest) :
    (s.next (.run i m)).calls = s.calls.set i (m.new ++ rest) := by
  simp only [next, setStack, Move.effect_calls, top, List.tail_cons]

theorem stackAt_next_run {rest : List Op} (top : stackAt s.calls i = m.op :: rest) :
    stackAt (s.next (.run i m)).calls i = m.new ++ rest := by
  rw [next_run_calls top, stackAt_set_self (lt_length_of_stackAt top)]

theorem stackAt_next_run_of_ne {j : ℕ} (apart : i ≠ j) : stackAt (s.next (.run i m)).calls j = stackAt s.calls j := by
  simp only [next, setStack, Move.effect_calls]
  exact stackAt_set_of_ne apart

theorem stackAt_next_call {c : Call} (loop : 0 < s.calls.length) : stackAt (s.next (.call c)).calls 0 = c.new := by
  simp only [next, setStack, Call.effect_calls]
  exact stackAt_set_self loop

theorem stackAt_next_call_of_ne {c : Call} (apart : i ≠ 0) : stackAt (s.next (.call c)).calls i = stackAt s.calls i := by
  simp only [next, setStack, Call.effect_calls]
  exact stackAt_set_of_ne apart.symm

theorem stackAt_next_reader {reqs : List GetReply} (other : i ≠ s.calls.length) :
    stackAt (s.next (.reader reqs)).calls i = stackAt s.calls i :=
  stackAt_append_of_ne other

theorem stackAt_next_failure (loop : 0 < s.calls.length) :
    stackAt (s.next .failure).calls 0 = .destroy :: stackAt s.calls 0 :=
  stackAt_set_self loop

theorem stackAt_next_failure_of_ne (apart : i ≠ 0) : stackAt (s.next .failure).calls i = stackAt s.calls i :=
  stackAt_set_of_ne apart.symm

/-- Every event replaces a part of what the threads have to do. -/
theorem calls_next_perm (able : s.enabled cfg e) (loop : 0 < s.calls.length) :
    ∃ others, s.calls.flatten.Perm (e.old ++ others) ∧ (s.next e).calls.flatten.Perm (e.new ++ others) := by
  cases e with
  | run i m =>
    obtain ⟨rest, top, _⟩ := enabled_run able
    refine ⟨_, flatten_perm_of_stackAt top, ?_⟩
    rw [next_run_calls top]
    exact flatten_set_perm (lt_length_of_stackAt top)
  | call c =>
    have idle : stackAt s.calls 0 = [] := (of_decide_eq_true able).1
    have here : (s.calls.set 0 (c.new ++ [])).flatten.Perm _ := flatten_set_perm loop
    rw [List.append_nil, set_stackAt loop idle] at here
    refine ⟨s.calls.flatten, .refl _, ?_⟩
    simp only [next, setStack, Call.effect_calls]
    exact here
  | reader reqs =>
    refine ⟨s.calls.flatten, .refl _, ?_⟩
    simp only [next, List.flatten_append, List.flatten_singleton]
    exact List.perm_append_comm
  | failure =>
    have here : (s.calls.set 0 ([.destroy] ++ stackAt s.calls 0)).flatten.Perm _ := flatten_set_perm loop
    rw [set_stackAt loop rfl] at here
    exact ⟨s.calls.flatten, .refl _, here⟩
  | answer | progress | success => exact ⟨s.calls.flatten, .refl _, .refl _⟩

theorem mail_next_perm (able : s.enabled cfg e) : (s.mail ++ e.posted).Perm (e.started ++ (s.next e).mail) := by
  have same : (s.mail ++ []).Perm s.mail := by
    rw [List.append_nil]
  cases e with
  | run i m =>
    show (s.mail ++ (Event.run i m).posted).Perm (m.effect s i).mail
    cases m with
    | finishPost | lowerPost | closeDelete | detach => exact .refl _
    | _ => exact same
  | call c => cases c with
    | mail op =>
      have posted : op ∈ s.mail := of_decide_eq_true (of_decide_eq_true able).2
      exact same.trans (List.perm_cons_erase posted)
    | _ => exact same
  | answer id r => exact .refl _
  | _ => exact same

theorem started_subset_new : e.started ⊆ e.new := by
  cases e with
  | call c => cases c with
    | mail op => exact List.Subset.refl _
    | _ => exact List.nil_subset _
  | _ => exact List.nil_subset _

theorem fresh_or_mem_mail (able : s.enabled cfg e) {op : Op} (member : op ∈ e.new ++ e.posted) :
    op ∈ e.fresh ∨ op ∈ s.mail := by
  cases e with
  | call c => cases c with
    | mail op' =>
      obtain rfl := List.mem_singleton.mp member
      exact .inr (of_decide_eq_true (of_decide_eq_true able).2)
    | _ => exact .inl member
  | _ => exact .inl member

/-- What holds of all that threads and posted callbacks have to do, and of what an event adds, holds after it. -/
theorem forall_ops_next {P : Op → Prop} (able : s.enabled cfg e) (loop : 0 < s.calls.length)
    (before : ∀ op ∈ s.calls.flatten ++ s.mail, P op)
    (added : (∀ old ∈ e.old, P old) → ∀ op ∈ e.fresh, P op) :
    ∀ op ∈ (s.next e).calls.flatten ++ (s.next e).mail, P op := by
  obtain ⟨others, first, second⟩ := calls_next_perm able loop
  obtain ⟨calls, mail⟩ := List.forall_mem_append.mp before
  have now : ∀ op ∈ e.new ++ e.posted, P op := by
    intro op member
    rcases fresh_or_mem_mail able member with fresh | posted
    · exact added (fun old member => calls old (first.symm.subset (List.mem_append_left _ member))) op fresh
    · exact mail op posted
  refine List.forall_mem_append.mpr ⟨fun op member => ?_, fun op member => ?_⟩
  · rcases List.mem_append.mp (second.subset member) with new | other
    · exact now op (List.mem_append_left _ new)
    · exact calls op (first.symm.subset (List.mem_append_right _ other))
  · have before := (mail_next_perm able).symm.subset (List.mem_append_right _ member)
    rcases List.mem_append.mp before with old | new
    · exact mail op old
    · exact now op (List.mem_append_right _ new)

theorem added_subset_next (able : s.enabled cfg e) (loop : 0 < s.calls.length) :
    e.new ++ e.posted ⊆ (s.next e).calls.flatten ++ (s.next e).mail := by
  obtain ⟨others, _, second⟩ := calls_next_perm able loop
  have called : e.new ⊆ (s.next e).calls.flatten ++ (s.next e).mail :=
    fun op new => List.mem_append_left _ (second.symm.subset (List.mem_append_left _ new))
  refine List.append_subset.mpr ⟨called, fun op posted => ?_⟩
  rcases List.mem_append.mp ((mail_next_perm able).subset (List.mem_append_right _ posted)) with started | mail
  · exact called (started_subset_new started)
  · exact List.mem_append_right _ mail

/-- Something that a thread or a posted callback has to do stays until an event replaces it. -/
theorem exists_ops_next {Q : Op → Prop} (able : s.enabled cfg e) (loop : 0 < s.calls.length)
    (before : ∃ op ∈ s.calls.flatten ++ s.mail, Q op)
    (replaced : ∀ old ∈ e.old, Q old → ∃ op ∈ e.new ++ e.posted, Q op) :
    ∃ op ∈ (s.next e).calls.flatten ++ (s.next e).mail, Q op := by
  obtain ⟨others, first, second⟩ := calls_next_perm able loop
  obtain ⟨op, member, here⟩ := before
  rcases List.mem_append.mp member with call | mail
  · rcases List.mem_append.mp (first.subset call) with old | other
    · obtain ⟨op, new, here⟩ := replaced op old here
      exact ⟨op, added_subset_next able loop new, here⟩
    · exact ⟨op, List.mem_append_left _ (second.symm.subset (List.mem_append_right _ other)), here⟩
  · rcases List.mem_append.mp ((mail_next_perm able).subset (List.mem_append_left _ mail)) with new | still
    · exact ⟨op, added_subset_next able loop (List.mem_append_left _ (started_subset_new new)), here⟩
    · exact ⟨op, List.mem_append_right _ still, here⟩

/-- What holds of the calls in progress in every run. -/
structure Sane (s : State) : Prop where
  loop : 0 < s.calls.length
  guarded : Guarded Op.holding s.sendMu s.calls
  posted : ∀ op ∈ s.mail, op.posted = true
  readers : ∀ i, i ≠ 0 → ∀ op ∈ stackAt s.calls i, op.direct = true
  buried : ∀ i, ∀ op ∈ (stackAt s.calls i).tail, op.buried = true
  filled : ∀ op ∈ s.calls.flatten ++ s.mail, op.Filled

theorem sane_start : Sane start where
  loop := Nat.one_pos
  guarded i := by
    cases i <;> rfl
  posted _ member := nomatch member
  readers i _ op member := by
    cases i <;> cases member
  buried i op member := by
    cases i <;> cases member
  filled _ member := nomatch member

theorem length_calls_next : s.calls.length ≤ (s.next e).calls.length := by
  cases e with
  | run i m => simp [next, setStack, Move.effect_calls]
  | call c => simp [next, setStack, Call.effect_calls]
  | reader reqs => simp [next]
  | failure => simp [next, setStack, complete]
  | _ => exact Nat.le_refl _

theorem mail_next_posted (able : s.enabled cfg e) (posted : ∀ op ∈ s.mail, op.posted = true) :
    ∀ op ∈ (s.next e).mail, op.posted = true := by
  intro op member
  have before := (mail_next_perm able).symm.subset (List.mem_append_right _ member)
  refine List.forall_mem_append.mpr ⟨posted, ?_⟩ op before
  apply List.all_eq_true.mp
  cases e with
  | run i m => cases m <;> rfl
  | _ => rfl

theorem guarded_next (sane : s.Sane) (able : s.enabled cfg e) :
    Guarded Op.holding (s.next e).sendMu (s.next e).calls := by
  cases e with
  | run i m =>
    obtain ⟨rest, top, guard⟩ := enabled_run able
    rw [next_run_calls top]
    show Guarded Op.holding (m.effect s i).sendMu _
    cases m with
    | directLocked | retryLocked | relockLocked | releaseLocked | drainLocked | flushLock | chainLock | lockFor =>
      exact sane.guarded.acquire top guard rfl
    | unlockHeld | unlock | flushUnlock | chainUnlock => exact sane.guarded.release top rfl
    | flushClosing after | flushClosed after | flushPlain after =>
      exact sane.guarded.keep top (Move.countP_released after)
    | flushSpillNone after | flushSpillSome after => cases after <;> exact sane.guarded.keep top rfl
    | _ => exact sane.guarded.keep top rfl
  | call c =>
    obtain ⟨idle, guard⟩ := of_decide_eq_true able
    have outside : c.new.countP Op.holding = 0 := by
      cases c with
      | mail op =>
        have posted := sane.posted op (of_decide_eq_true guard)
        cases op <;> first | rfl | cases posted
      | _ => rfl
    have pushed := sane.guarded.push sane.loop outside
    rw [idle, List.append_nil] at pushed
    simp only [next, setStack, Call.effect_calls]
    cases c <;> exact pushed
  | reader reqs => exact sane.guarded.start rfl
  | failure =>
    have pushed : Guarded Op.holding s.sendMu (s.calls.set 0 ([.destroy] ++ stackAt s.calls 0)) :=
      sane.guarded.push sane.loop rfl
    exact pushed
  | _ => exact sane.guarded

theorem readers_next (sane : s.Sane) (able : s.enabled cfg e) :
    ∀ i, i ≠ 0 → ∀ op ∈ stackAt (s.next e).calls i, op.direct = true := by
  intro j apart
  cases e with
  | run i m =>
    obtain ⟨rest, top, _⟩ := enabled_run able
    rcases eq_or_ne i j with rfl | other
    · rw [stackAt_next_run top]
      have before := sane.readers i apart
      rw [top] at before
      obtain ⟨here, below⟩ := List.forall_mem_cons.mp before
      exact List.forall_mem_append.mpr ⟨Move.direct_of_mem_new here, below⟩
    · rw [stackAt_next_run_of_ne other]
      exact sane.readers j apart
  | call c =>
    rw [stackAt_next_call_of_ne apart]
    exact sane.readers j apart
  | reader reqs =>
    rcases eq_or_ne j s.calls.length with rfl | other
    · simp only [next, stackAt_append_self]
      exact List.forall_mem_singleton.mpr rfl
    · rw [stackAt_next_reader other]
      exact sane.readers j apart
  | failure =>
    rw [stackAt_next_failure_of_ne apart]
    exact sane.readers j apart
  | _ => exact sane.readers j apart

/-- The socket calls back on an idle loop or on top of a write. -/
theorem buried_of_callsBack (sane : s.Sane) (waits : s.callsBack = true) :
    ∀ op ∈ stackAt s.calls 0, op.buried = true := by
  have below := sane.buried 0
  unfold callsBack at waits
  revert below waits
  cases stackAt s.calls 0 with
  | nil => exact fun _ _ _ absurd => nomatch absurd
  | cons top rest =>
    intro waits below
    refine List.forall_mem_cons.mpr ⟨?_, below⟩
    rcases of_decide_eq_true waits with rfl | rfl <;> rfl

theorem buried_next (sane : s.Sane) (able : s.enabled cfg e) :
    ∀ i, ∀ op ∈ (stackAt (s.next e).calls i).tail, op.buried = true := by
  intro j
  cases e with
  | run i m =>
    obtain ⟨rest, top, _⟩ := enabled_run able
    rcases eq_or_ne i j with rfl | other
    · rw [stackAt_next_run top]
      have below := sane.buried i
      rw [top, List.tail_cons] at below
      have above := m.buried_of_mem_new
      revert above
      cases m.new with
      | nil => exact fun _ op member => below op (List.mem_of_mem_tail member)
      | cons first more => exact fun above => List.forall_mem_append.mpr ⟨above, below⟩
    · rw [stackAt_next_run_of_ne other]
      exact sane.buried j
  | call c =>
    rcases eq_or_ne j 0 with rfl | other
    · rw [stackAt_next_call sane.loop]
      cases c <;> simp [Call.new, Op.buried]
    · rw [stackAt_next_call_of_ne other]
      exact sane.buried j
  | reader reqs =>
    rcases eq_or_ne j s.calls.length with rfl | other
    · simp only [next, stackAt_append_self]
      exact fun _ absurd => nomatch absurd
    · rw [stackAt_next_reader other]
      exact sane.buried j
  | failure =>
    rcases eq_or_ne j 0 with rfl | other
    · rw [stackAt_next_failure sane.loop]
      exact buried_of_callsBack sane (of_decide_eq_true able).1
    · rw [stackAt_next_failure_of_ne other]
      exact sane.buried j
  | _ => exact sane.buried j

/-- A move passes on responses and counts only if there are any. -/
theorem filled_of_mem_new (guard : m.guard cfg s i = true) (filled : m.op.Filled) : ∀ op ∈ m.new, op.Filled := by
  have chunk : ∀ {unsent : List GetReply} {chunks : List Chunk} {post : Bool}, unsent ≠ [] →
      (∀ chunk ∈ chunks, chunk.1 ≠ []) → ∀ chunk ∈ chunks ++ [(unsent.take kMaxPerSend, post)], chunk.1 ≠ [] := by
    intro unsent chunks post some before
    refine List.forall_mem_append.mpr ⟨before, List.forall_mem_singleton.mpr ?_⟩
    intro none
    rcases List.take_eq_nil_iff.mp none with absurd | absurd
    · cases absurd
    · exact some absurd
  have past : ∀ {after : Option ℕ}, (∀ k ∈ after, 0 < k) → ∀ op ∈ Move.released after, op.Filled := by
    intro after pos op member
    obtain ⟨k, rfl, rfl⟩ := Move.mem_released member
    exact pos k rfl
  cases m with
  | look unsent chunks clear => exact List.forall_mem_singleton.mpr ⟨(of_decide_eq_true guard).1, filled⟩
  | sendAll | sendSome | sendBroken | sendNone => exact List.forall_mem_singleton.mpr (chunk filled.1 filled.2)
  | finishPost reqs chunks => exact List.forall_mem_singleton.mpr (List.forall_mem_cons.mp filled).2
  | finishDirect reqs chunks =>
    exact List.forall_mem_cons.mpr ⟨trivial, List.forall_mem_singleton.mpr (List.forall_mem_cons.mp filled).2⟩
  | flushClosed after => exact past filled
  | flushClosing after | flushPlain after | flushSpillNone after =>
    exact List.forall_mem_cons.mpr ⟨trivial, past filled⟩
  | flushSpillSome after => exact List.forall_mem_cons.mpr ⟨trivial, List.forall_mem_cons.mpr ⟨trivial, past filled⟩⟩
  | batch reqs =>
    refine List.forall_mem_singleton.mpr fun k here => ?_
    cases here
    exact List.length_pos_of_ne_nil filled
  | directBusy | hold | loadPending | casMiss | take | lookDone | unlockHeld | recheckNone | recheckSome | relockLocked
  | relockBusy | flushDirect | flushLock => exact List.forall_mem_singleton.mpr filled
  | directLocked | retryLocked | drainLocked | flushNow | leaveFlush | settledFlush | respondOpen | respondClosed =>
    simp [Move.new, Op.Filled]
  | _ => exact Op.filled_of_light rfl

theorem filled_next (sane : s.Sane) (able : s.enabled cfg e) :
    ∀ op ∈ (s.next e).calls.flatten ++ (s.next e).mail, op.Filled := by
  refine forall_ops_next able sane.loop sane.filled fun filled => ?_
  cases e with
  | run i m =>
    obtain ⟨_, _, guard⟩ := enabled_run able
    have here := filled _ List.mem_cons_self
    refine List.forall_mem_append.mpr ⟨filled_of_mem_new guard here, ?_⟩
    cases m with
    | finishPost reqs chunks => exact List.forall_mem_singleton.mpr (List.forall_mem_cons.mp here).1
    | lowerPost k v => exact List.forall_mem_singleton.mpr (of_decide_eq_true guard).1
    | _ => exact Op.filled_of_light rfl
  | call c => cases c with
    | flushCb | flushTimeout => simp [Event.fresh, Event.new, Event.posted, Call.new, Op.Filled]
    | _ => exact Op.filled_of_light rfl
  | reader reqs => exact List.forall_mem_singleton.mpr (of_decide_eq_true able).2.1
  | _ => exact Op.filled_of_light rfl

theorem Sane.next (sane : s.Sane) (able : s.enabled cfg e) : (s.next e).Sane where
  loop := Nat.lt_of_lt_of_le sane.loop length_calls_next
  guarded := guarded_next sane able
  posted := mail_next_posted able sane.posted
  readers := readers_next sane able
  buried := buried_next sane able
  filled := filled_next sane able

theorem Sane.direct_of_ne {op : Op} {rest : List Op} (sane : s.Sane) (reader : i ≠ 0)
    (top : stackAt s.calls i = op :: rest) : op.direct = true :=
  sane.readers i reader op (mem_stackAt top)

theorem Sane.eq_zero_of_mem {op : Op} (sane : s.Sane) (member : op ∈ stackAt s.calls i) (other : op.direct = false) :
    i = 0 := by
  by_contra reader
  have direct := sane.readers i reader op member
  rw [other] at direct
  cases direct

/-- While a thread is in a locked section, the others are in none. -/
theorem Sane.mem_rest_of_holding {op op' : Op} {rest : List Op} (sane : s.Sane) (top : stackAt s.calls i = op :: rest)
    (locked : op.holding = true) (member : op' ∈ (s.calls.set i rest).flatten) (also : op'.holding = true) :
    op' ∈ rest := by
  obtain ⟨j, here⟩ := exists_stackAt_of_mem_flatten member
  rcases eq_or_ne i j with rfl | other
  · rwa [stackAt_set_self (lt_length_of_stackAt top)] at here
  · rw [stackAt_set_of_ne other] at here
    exact (other (sane.guarded.eq_of_holding (mem_stackAt top) locked here also)).elim

/-- The fields of the loop and the socket. -/
def own (s : State) : State :=
  { s with
    sendMu := .free
    sendPending := []
    outstanding := 0
    spillPosted := false
    spill := []
    wire := []
    engine := []
    calls := []
    mail := []
    handed := []
    written := []
    broken := false }

/-- Other threads leave what the loop has to do and its fields alone. -/
theorem stackAt_next_outside (sane : s.Sane) (outside : e.outside = true) :
    stackAt (s.next e).calls 0 = stackAt s.calls 0 := by
  cases e with
  | run i m => exact stackAt_next_run_of_ne (of_decide_eq_true outside)
  | reader reqs => exact stackAt_next_reader (Nat.ne_of_lt sane.loop)
  | answer id r => rfl
  | _ => cases outside

theorem own_next (sane : s.Sane) (able : s.enabled cfg e) (outside : e.outside = true) :
    (s.next e).own = s.own := by
  cases e with
  | run i m =>
    obtain ⟨rest, top, _⟩ := enabled_run able
    have direct := sane.direct_of_ne (of_decide_eq_true outside) top
    show (m.effect s i).own = s.own
    cases m <;> first | rfl | cases direct
  | reader | answer => rfl
  | _ => cases outside

/-- What the loop has to do stays on its stack until the loop does it. -/
theorem mem_loop_next {op : Op} (sane : s.Sane) (able : s.enabled cfg e) (member : op ∈ stackAt s.calls 0) :
    op ∈ stackAt (s.next e).calls 0 ∨ ∃ m, e = .run 0 m ∧ m.op = op := by
  cases e with
  | run i m =>
    obtain ⟨rest, top, _⟩ := enabled_run able
    rcases eq_or_ne i 0 with rfl | other
    · rw [top] at member
      rcases List.mem_cons.mp member with rfl | below
      · exact .inr ⟨m, rfl, rfl⟩
      · rw [stackAt_next_run top]
        exact .inl (List.mem_append_right _ below)
    · rw [stackAt_next_run_of_ne other]
      exact .inl member
  | call c =>
    rw [(of_decide_eq_true able).1] at member
    cases member
  | reader reqs =>
    rw [stackAt_next_outside sane rfl]
    exact .inl member
  | failure =>
    rw [stackAt_next_failure sane.loop]
    exact .inl (List.mem_cons_of_mem _ member)
  | _ => exact .inl member

theorem not_dispatches_of_outside (sane : s.Sane) (able : s.enabled cfg e) (outside : e.outside = true) :
    e.dispatches = false := by
  cases e with
  | run i m =>
    obtain ⟨rest, top, _⟩ := enabled_run able
    have direct := sane.direct_of_ne (of_decide_eq_true outside) top
    cases m with
    | parseDispatch | parseRefuse => cases direct
    | _ => rfl
  | _ => rfl

end State

end FluxKV.Connection.Send
