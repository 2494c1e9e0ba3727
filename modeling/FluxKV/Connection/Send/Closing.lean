import FluxKV.Connection.Send.Migration

/-! # Closing and deleting a connection

`destroy` marks the connection closed under the mutex, finishes what others left to send, and looks at the count.
At zero it posts the deletion. Otherwise the loop deletes the connection when it takes the count to zero, which
only the loop does from then on. A connection that is between two loops has nothing in flight that could close it.
-/

namespace FluxKV.Connection.Send

open Machine

variable {cfg : Config} {s : State} {e : Event} {m : Move} {i : ℕ}

namespace Op

/-- `destroy`, before it looks at the count. -/
def checks : Op → Bool
  | closeCheck _ => true
  | _ => false

/-- Stands for the deletion. -/
def ends : Op → Bool
  | closeCheck _ | delete => true
  | _ => false

/-- Can run inside `destroy`. -/
def closes : Op → Bool
  | destroy | lock _ | mark _ | drain | drainTry | closeSocket | inClose => true
  | op => op.direct

end Op

/-- What runs inside `destroy` of a connection that is closing stays there. -/
theorem Move.closes_of_mem_new (guard : m.guard cfg s i = true) (closing : s.closing = true)
    (closes : m.op.closes = true) : ∀ op ∈ m.new, op.closes = true := by
  apply List.all_eq_true.mp
  cases m with
  | destroy evb =>
    obtain ⟨opened, _⟩ := of_decide_eq_true guard
    rw [closing] at opened
    cases opened
  | _ => first | rfl | cases closes

namespace Event

/-- Begins an ending: `destroy`, or the loop that takes the count of a closing connection to zero. -/
def decides : Event → Bool
  | run _ (.destroy _) | run _ (.subDelete _) => true
  | _ => false

/-- `destroy` leaves the deletion to the loop. -/
def keeps : Event → Bool
  | run _ (.closeKeep _) => true
  | _ => false

theorem eq_of_keeps (keeps : e.keeps = true) : ∃ i evb, e = .run i (.closeKeep evb) := by
  cases e with
  | run i m => cases m with
    | closeKeep evb => exact ⟨i, evb, rfl⟩
    | _ => cases keeps
  | _ => cases keeps

end Event

/-- Only the check at the end of `destroy` posts a deletion. -/
theorem Event.delete_mem_fresh (member : Op.delete ∈ e.fresh) : ∃ i, e = .run i .closeDelete := by
  have absurd : e.fresh.all (fun op => !decide (op = .delete)) = true → False :=
    fun none => by cases List.all_eq_true.mp none _ member
  cases e with
  | run i m => cases m with
    | closeDelete => exact ⟨i, rfl⟩
    | flushClosing after | flushClosed after | flushPlain after | flushSpillNone after | flushSpillSome after =>
      cases after <;> exact (absurd rfl).elim
    | _ => exact (absurd rfl).elim
  | call c => cases c <;> exact (absurd rfl).elim
  | _ => exact (absurd rfl).elim

namespace State

/-- Deletions so far, and those decided on or about to be. -/
def endings (s : State) : ℕ := s.deleted + (s.calls.flatten ++ s.mail).countP Op.ends

theorem countP_next (p : Op → Bool) (able : s.enabled cfg e) (loop : 0 < s.calls.length) :
    ((s.next e).calls.flatten ++ (s.next e).mail).countP p + e.old.countP p + e.started.countP p =
      (s.calls.flatten ++ s.mail).countP p + e.new.countP p + e.posted.countP p := by
  obtain ⟨others, first, second⟩ := calls_next_perm able loop
  have first := first.countP_eq p
  have second := second.countP_eq p
  have mail := (mail_next_perm able).countP_eq p
  simp only [List.countP_append] at first second mail ⊢
  omega

theorem endings_next (able : s.enabled cfg e) (loop : 0 < s.calls.length) :
    (s.next e).endings + e.keeps.toNat = s.endings + e.decides.toNat := by
  have counted := countP_next Op.ends able loop
  have total : ∀ d o n : ℕ, (s.next e).deleted = s.deleted + d → e.old.countP Op.ends = o →
      e.new.countP Op.ends + e.posted.countP Op.ends = e.started.countP Op.ends + n →
      (s.next e).endings + o = s.endings + n + d := by
    intro d o n deleted old new
    simp only [endings]
    omega
  cases e with
  | run i m => cases m with
    | destroy evb => exact total 0 0 1 rfl rfl rfl
    | subDelete k => exact total 1 0 0 rfl rfl rfl
    | closeKeep evb => exact total 0 1 0 rfl rfl rfl
    | closeDelete => exact Nat.add_right_cancel (total 0 1 1 rfl rfl rfl)
    | delete => exact Nat.add_right_cancel (total 1 1 0 rfl rfl rfl)
    | flushClosing after | flushClosed after | flushPlain after | flushSpillNone after | flushSpillSome after =>
      cases after <;> exact total 0 0 0 rfl rfl rfl
    | _ => exact total 0 0 0 rfl rfl rfl
  | call c => cases c <;> exact total 0 0 0 rfl rfl rfl
  | _ => exact total 0 0 0 rfl rfl rfl

/-- A connection that is marked has its count taken to zero by the loop alone, which then runs `onDrained`. -/
theorem drained_by_loop (sane : s.Sane) (able : s.enabled cfg e)
    (marked : s.sendClosed = true ∨ s.drainWatch = true) (counted : 0 < s.outstanding)
    (zero : (s.next e).outstanding = 0) : ∃ k, e = .run 0 (.subDelete k) ∨ e = .run 0 (.subCheck k) := by
  have same : s.outstanding = 0 → ∃ k, e = .run 0 (.subDelete k) ∨ e = .run 0 (.subCheck k) :=
    fun absurd => (Int.ne_of_gt counted absurd).elim
  cases e with
  | run i m =>
    obtain ⟨rest, top, guard⟩ := enabled_run able
    have loop : m.op.direct = false → i = 0 := sane.eq_zero_of_mem (mem_stackAt top)
    change (m.effect s i).outstanding = 0 at zero
    cases m with
    | subDelete k =>
      obtain rfl := loop rfl
      exact ⟨k, .inl rfl⟩
    | subCheck k =>
      obtain rfl := loop rfl
      exact ⟨k, .inr rfl⟩
    | checkFast k =>
      obtain ⟨opened, unwatched⟩ := Bool.and_eq_true_iff.mp guard
      rcases marked with marked | marked
      · rw [marked] at opened
        cases opened
      · rw [marked] at unwatched
        cases unwatched
    | lowerCas k v =>
      obtain ⟨_, more, _⟩ := of_decide_eq_true guard
      simp only [Move.effect, Move.lowered] at zero
      omega
    | subMore k =>
      have other : s.outstanding ≠ k := of_decide_eq_true guard
      simp only [Move.effect] at zero
      omega
    | hold | parseDispatch | parseRefuse =>
      simp only [Move.effect] at zero
      omega
    | _ => exact same zero
  | call c => cases c <;> exact same zero
  | _ => exact same zero

theorem not_dispatches_of_closing (able : s.enabled cfg e) (closing : s.closing = true) :
    e.dispatches = false := by
  cases e with
  | run i m =>
    obtain ⟨_, _, guard⟩ := enabled_run able
    cases m with
    | parseDispatch | parseRefuse =>
      have opened := (Bool.and_eq_true_iff.mp guard).1
      rw [closing] at opened
      cases opened
    | _ => rfl
  | _ => rfl

/-- A connection is deleted once, and the operations that lead there keep their order. -/
structure Closed (s : State) : Prop where
  opened : s.closing = false → s.endings = 0
  once : s.endings ≤ 1
  drained : 0 < s.deleted ∨ Op.delete ∈ s.calls.flatten ++ s.mail → s.outstanding = 0
  ordered : (stackAt s.calls 0).Pairwise fun above below => below.checks = true → above.closes = true
  checked : ∀ op ∈ s.calls.flatten ++ s.mail, op ≠ .closeCheck false
  marked : s.closing = true →
    s.sendClosed = true ∨ Op.lock .close ∈ stackAt s.calls 0 ∨ Op.mark .close ∈ stackAt s.calls 0
  ended : s.closing = true → s.endings = 1 ∨ s.sendClosed = true ∧ 0 < s.outstanding
  detached : s.attached = false → s.outstanding = 0 ∧ s.closing = false ∧ s.queued = [] ∧ s.Quiet ∧
    (stackAt s.calls 0 = [] ∨ stackAt s.calls 0 = [.finishAttach])

theorem closed_start : start.Closed where
  opened _ := rfl
  once := Nat.zero_le 1
  drained _ := rfl
  ordered := .nil
  checked _ absurd := nomatch absurd
  marked absurd := nomatch absurd
  ended absurd := nomatch absurd
  detached absurd := nomatch absurd

theorem Closed.closing_of_pos (closed : s.Closed) (some : 0 < s.endings) : s.closing = true := by
  by_contra opened
  exact Nat.ne_of_gt some (closed.opened (Bool.not_eq_true _ ▸ opened))

theorem endings_pos_of_mem {op : Op} (member : op ∈ s.calls.flatten ++ s.mail) (ends : op.ends = true) :
    0 < s.endings :=
  Nat.add_pos_right _ (List.countP_pos_iff.mpr ⟨op, member, ends⟩)

/-- Before the loop takes the count to zero nothing has decided on a deletion. -/
theorem Closed.endings_of_subDelete {k : ℕ} (closed : s.Closed) (sane : s.Sane)
    (able : s.enabled cfg (.run i (.subDelete k))) : s.endings = 0 := by
  obtain ⟨rest, top, guard⟩ := enabled_run able
  obtain ⟨last, _⟩ := of_decide_eq_true guard
  have pos : 0 < k := sane.filled _ (List.mem_append_left _ (mem_flatten_of_stackAt top))
  obtain rfl := sane.eq_zero_of_mem (mem_stackAt top) rfl
  have counted : ¬ (0 < s.deleted ∨ Op.delete ∈ s.calls.flatten ++ s.mail) := by
    intro past
    have zero := closed.drained past
    omega
  have none : (s.calls.flatten ++ s.mail).countP Op.ends = 0 := by
    refine List.countP_eq_zero.mpr fun op member ends => ?_
    cases op with
    | delete => exact counted (.inr member)
    | closeCheck evb =>
      rcases List.mem_append.mp member with call | mail
      · obtain ⟨j, here⟩ := exists_stackAt_of_mem_flatten call
        obtain rfl := sane.eq_zero_of_mem here rfl
        have ordered := closed.ordered
        rw [top] at here ordered
        rcases List.mem_cons.mp here with absurd | below
        · cases absurd
        · cases List.rel_of_pairwise_cons ordered below rfl
      · cases sane.posted _ mail
    | _ => cases ends
  simp only [endings, none]
  omega

theorem Closed.endings_of_decides (closed : s.Closed) (sane : s.Sane) (able : s.enabled cfg e)
    (decides : e.decides = true) : s.endings = 0 := by
  cases e with
  | run i m => cases m with
    | destroy evb =>
      obtain ⟨_, _, guard⟩ := enabled_run able
      exact closed.opened (of_decide_eq_true guard).1
    | subDelete k => exact closed.endings_of_subDelete sane able
    | _ => cases decides
  | _ => cases decides

theorem closing_of_next (closing : (s.next e).closing = true) :
    s.closing = true ∨ ∃ i evb, e = .run i (.destroy evb) := by
  cases e with
  | run i m =>
    change (m.effect s i).closing = true at closing
    cases m with
    | destroy evb => exact .inr ⟨i, evb, rfl⟩
    | _ => exact .inl closing
  | call c => cases c <;> exact .inl closing
  | _ => exact .inl closing

theorem closing_of_decides (able : s.enabled cfg e) (decides : e.decides = true) :
    (s.next e).closing = true := by
  cases e with
  | run i m => cases m with
    | destroy evb => rfl
    | subDelete k =>
      obtain ⟨_, _, guard⟩ := enabled_run able
      exact (of_decide_eq_true guard).2
    | _ => cases decides
  | _ => cases decides

theorem Closed.once_next (closed : s.Closed) (sane : s.Sane) (able : s.enabled cfg e) :
    (s.next e).endings ≤ 1 := by
  have once := closed.once
  have total := endings_next able sane.loop
  cases decided : e.decides with
  | true =>
    have none := closed.endings_of_decides sane able decided
    rw [decided, none, Bool.toNat_true] at total
    omega
  | false =>
    rw [decided, Bool.toNat_false] at total
    omega

theorem Closed.opened_next (closed : s.Closed) (sane : s.Sane) (able : s.enabled cfg e)
    (opened : (s.next e).closing = false) : (s.next e).endings = 0 := by
  have before : s.closing = false := by
    by_contra closing
    rw [closing_next (Bool.of_not_eq_false closing)] at opened
    cases opened
  have total := endings_next able sane.loop
  cases decided : e.decides with
  | true =>
    rw [closing_of_decides able decided] at opened
    cases opened
  | false =>
    rw [decided, closed.opened before, Bool.toNat_false] at total
    omega

theorem Closed.drained_next (closed : s.Closed) (sane : s.Sane) (balanced : s.Balanced) (able : s.enabled cfg e)
    (past : 0 < (s.next e).deleted ∨ Op.delete ∈ (s.next e).calls.flatten ++ (s.next e).mail) :
    (s.next e).outstanding = 0 := by
  have stays : 0 < s.deleted ∨ Op.delete ∈ s.calls.flatten ++ s.mail → (s.next e).outstanding = 0 := by
    intro past
    have some : 0 < s.endings := by
      rcases past with deleted | pending
      · exact Nat.add_pos_left deleted _
      · exact endings_pos_of_mem pending rfl
    have none := not_dispatches_of_closing able (closed.closing_of_pos some)
    exact outstanding_next_of_zero sane balanced able none (closed.drained past)
  rcases past with deleted | pending
  · cases e with
    | run i m =>
      obtain ⟨rest, top, guard⟩ := enabled_run able
      change 0 < (m.effect s i).deleted at deleted
      cases m with
      | subDelete k => exact sub_eq_zero.mpr (of_decide_eq_true guard).1
      | delete => exact stays (.inr (List.mem_append_left _ (mem_flatten_of_stackAt top)))
      | _ => exact stays (.inl deleted)
    | call c => cases c <;> exact stays (.inl deleted)
    | _ => exact stays (.inl deleted)
  · have before : ∀ op ∈ s.calls.flatten ++ s.mail, op = .delete → (s.next e).outstanding = 0 := by
      rintro op member rfl
      exact stays (.inr member)
    refine forall_ops_next able sane.loop before (fun _ op member same => ?_) _ pending rfl
    obtain rfl := same
    obtain ⟨i, rfl⟩ := Event.delete_mem_fresh member
    obtain ⟨_, _, guard⟩ := enabled_run able
    exact of_decide_eq_true guard

theorem pairwise_of_unchecked {ops : List Op} (none : ops.all (fun op => !op.checks) = true) :
    ops.Pairwise fun above below => below.checks = true → above.closes = true := by
  refine List.pairwise_of_forall_mem_list fun above _ below member checks => ?_
  have here := List.all_eq_true.mp none below member
  rw [checks] at here
  cases here

theorem Closed.ordered_next (closed : s.Closed) (sane : s.Sane) (able : s.enabled cfg e) :
    (stackAt (s.next e).calls 0).Pairwise fun above below => below.checks = true → above.closes = true := by
  cases e with
  | run i m =>
    obtain ⟨rest, top, guard⟩ := enabled_run able
    rcases eq_or_ne i 0 with rfl | other
    · have ordered := closed.ordered
      rw [top] at ordered
      obtain ⟨above, below⟩ := List.pairwise_cons.mp ordered
      rw [stackAt_next_run top]
      refine List.pairwise_append.mpr ⟨?_, below, fun op new op' old checks => ?_⟩
      · cases m with
        | destroy evb => simp [Move.new, Op.checks, Op.closes]
        | flushClosing after | flushClosed after | flushPlain after | flushSpillNone after | flushSpillSome after =>
          cases after <;> exact pairwise_of_unchecked rfl
        | _ => exact pairwise_of_unchecked rfl
      · have pending : op' ∈ s.calls.flatten ++ s.mail := by
          apply List.mem_append_left
          apply mem_flatten_of_mem_stackAt (i := 0)
          rw [top]
          exact List.mem_cons_of_mem _ old
        have ends : op'.ends = true := by
          cases op' with
          | closeCheck evb => rfl
          | _ => cases checks
        have closing := closed.closing_of_pos (endings_pos_of_mem pending ends)
        exact Move.closes_of_mem_new guard closing (above op' old checks) op new
    · rw [stackAt_next_run_of_ne other]
      exact closed.ordered
  | call c =>
    rw [stackAt_next_call sane.loop]
    cases c with
    | mail op => exact List.pairwise_singleton _ _
    | _ => exact pairwise_of_unchecked rfl
  | reader reqs =>
    rw [stackAt_next_outside sane rfl]
    exact closed.ordered
  | failure =>
    rw [stackAt_next_failure sane.loop]
    exact List.pairwise_cons.mpr ⟨fun _ _ _ => rfl, closed.ordered⟩
  | _ => exact closed.ordered

theorem Closed.checked_next (closed : s.Closed) (sane : s.Sane) (able : s.enabled cfg e) :
    ∀ op ∈ (s.next e).calls.flatten ++ (s.next e).mail, op ≠ .closeCheck false := by
  refine forall_ops_next able sane.loop closed.checked fun _ op member same => ?_
  obtain rfl := same
  have absurd : e.fresh.all (fun op => !decide (op = .closeCheck false)) = true → False :=
    fun none => by cases List.all_eq_true.mp none _ member
  cases e with
  | run i m => cases m with
    | destroy evb =>
      obtain ⟨rest, top, guard⟩ := enabled_run able
      obtain ⟨_, rfl⟩ := of_decide_eq_true guard
      obtain rfl := sane.eq_zero_of_mem (mem_stackAt top) rfl
      -- the loop runs `destroy`, so the connection is not between two loops
      have attached : s.attached = true := by
        by_contra detached
        obtain ⟨_, _, _, _, idle | last⟩ := closed.detached (Bool.not_eq_true _ ▸ detached)
        · rw [top] at idle
          cases idle
        · rw [top] at last
          cases last
      rw [attached] at absurd
      exact absurd rfl
    | flushClosing after | flushClosed after | flushPlain after | flushSpillNone after | flushSpillSome after =>
      cases after <;> exact absurd rfl
    | _ => exact absurd rfl
  | call c => cases c <;> exact absurd rfl
  | _ => exact absurd rfl

theorem sendClosed_next (marked : s.sendClosed = true) : (s.next e).sendClosed = true := by
  cases e with
  | run i m =>
    show (m.effect s i).sendClosed = true
    cases m with
    | markClose => rfl
    | _ => exact marked
  | call c => cases c <;> exact marked
  | _ => exact marked

theorem Closed.marked_next (closed : s.Closed) (sane : s.Sane) (able : s.enabled cfg e)
    (closing : (s.next e).closing = true) :
    (s.next e).sendClosed = true ∨ Op.lock .close ∈ stackAt (s.next e).calls 0 ∨
      Op.mark .close ∈ stackAt (s.next e).calls 0 := by
  rcases closing_of_next closing with before | ⟨i, evb, rfl⟩
  · rcases closed.marked before with marked | lock | mark
    · exact .inl (sendClosed_next marked)
    · rcases mem_loop_next sane able lock with still | ⟨m, rfl, op⟩
      · exact .inr (.inl still)
      · obtain ⟨rest, top, _⟩ := enabled_run able
        cases m with
        | lockFor why =>
          cases op
          rw [stackAt_next_run top]
          exact .inr (.inr List.mem_cons_self)
        | _ => cases op
    · rcases mem_loop_next sane able mark with still | ⟨m, rfl, op⟩
      · exact .inr (.inr still)
      · cases m with
        | markClose => exact .inl rfl
        | _ => cases op
  · obtain ⟨rest, top, _⟩ := enabled_run able
    obtain rfl := sane.eq_zero_of_mem (mem_stackAt top) rfl
    rw [stackAt_next_run top]
    exact .inr (.inl List.mem_cons_self)

/-- `destroy` looks at the count after it has marked the connection. -/
theorem Closed.sendClosed_of_check {evb : Bool} (closed : s.Closed) (sane : s.Sane)
    (able : s.enabled cfg (.run i (.closeKeep evb))) : s.sendClosed = true := by
  obtain ⟨rest, top, _⟩ := enabled_run able
  have member := List.mem_append_left s.mail (mem_flatten_of_stackAt top)
  obtain rfl := sane.eq_zero_of_mem (mem_stackAt top) rfl
  have below := sane.buried 0
  rw [top, List.tail_cons] at below
  have closing := closed.closing_of_pos (endings_pos_of_mem member rfl)
  rcases closed.marked closing with marked | lock | mark
  · exact marked
  · rw [top] at lock
    rcases List.mem_cons.mp lock with absurd | inside
    · cases absurd
    · cases below _ inside
  · rw [top] at mark
    rcases List.mem_cons.mp mark with absurd | inside
    · cases absurd
    · cases below _ inside

theorem Closed.ended_next (closed : s.Closed) (sane : s.Sane) (balanced : s.Balanced) (able : s.enabled cfg e)
    (closing : (s.next e).closing = true) :
    (s.next e).endings = 1 ∨ (s.next e).sendClosed = true ∧ 0 < (s.next e).outstanding := by
  have counted := (balanced.next sane able).outstanding_eq
  have total := endings_next able sane.loop
  cases kept : e.keeps with
  | true =>
    obtain ⟨i, evb, rfl⟩ := Event.eq_of_keeps kept
    obtain ⟨rest, top, guard⟩ := enabled_run able
    have member := List.mem_append_left s.mail (mem_flatten_of_stackAt top)
    refine .inr ⟨sendClosed_next (closed.sendClosed_of_check sane able), ?_⟩
    rcases of_decide_eq_true guard with some | rfl
    · have same : (s.next (.run i (.closeKeep evb))).outstanding = s.outstanding := rfl
      omega
    · exact (closed.checked _ member rfl).elim
  | false =>
    cases decided : e.decides with
    | true =>
      rw [kept, decided, closed.endings_of_decides sane able decided] at total
      exact .inl total
    | false =>
      rw [kept, decided] at total
      have before : s.closing = true := by
        rcases closing_of_next closing with before | ⟨i, evb, rfl⟩
        · exact before
        · cases decided
      rcases closed.ended before with one | ⟨marked, pos⟩
      · exact .inl (total.trans one)
      · refine .inr ⟨sendClosed_next marked, ?_⟩
        by_contra zero
        obtain ⟨k, rfl | rfl⟩ := drained_by_loop sane able (.inl marked) pos (by omega)
        · cases decided
        · obtain ⟨_, _, guard⟩ := enabled_run able
          have opened := (of_decide_eq_true guard).2
          rw [before] at opened
          cases opened

/-- Between two loops, the only callback that can run is the one that attaches the connection again. -/
theorem Closed.attach_of_call {c : Call} (closed : s.Closed) (coherent : s.Coherent cfg)
    (able : s.enabled cfg (.call c)) (detached : s.attached = false) : c = .mail .finishAttach := by
  obtain ⟨zero, opened, _, ⟨_, _, flushCb, flushTimeout, migrateCb, resumeTimeout⟩, _⟩ := closed.detached detached
  obtain ⟨_, _, counts, _⟩ := coherent.of_outstanding_eq_zero zero
  have guard : c.guard s = true := (of_decide_eq_true able).2
  cases c with
  | mail op =>
    have mail : op ∈ s.mail := of_decide_eq_true guard
    have member := List.mem_append_right s.calls.flatten mail
    have none := counts op member
    have filled := coherent.sane.filled op member
    have posted := coherent.sane.posted op mail
    cases op with
    | finishAttach => rfl
    | respond r => cases none
    | batch reqs => exact (filled (List.eq_nil_of_length_eq_zero none)).elim
    | subDrain k => exact (Nat.ne_of_gt filled none).elim
    | delete =>
      have closing := closed.closing_of_pos (endings_pos_of_mem member rfl)
      rw [opened] at closing
      cases closing
    | _ => cases posted
  | readDataAvailable | readEnd =>
    have attached := (Bool.and_eq_true_iff.mp guard).2
    rw [detached] at attached
    cases attached
  | flushCb =>
    rw [Call.guard, flushCb] at guard
    cases guard
  | flushTimeout =>
    rw [Call.guard, flushTimeout] at guard
    cases guard
  | migrateCb =>
    rw [Call.guard, migrateCb] at guard
    cases guard
  | migrateTo =>
    rw [Call.guard, detached] at guard
    cases guard
  | resumeStale | resumeStop | resumeWait | resume =>
    rw [Call.guard, resumeTimeout] at guard
    cases guard

theorem attached_of_next (detached : (s.next e).attached = false) : s.attached = false ∨ ∃ i, e = .run i .detach := by
  cases e with
  | run i m =>
    change (m.effect s i).attached = false at detached
    cases m with
    | detach => exact .inr ⟨i, rfl⟩
    | finishAttach => cases detached
    | _ => exact .inl detached
  | call c => cases c <;> exact .inl detached
  | _ => exact .inl detached

theorem Closed.detached_next (closed : s.Closed) (coherent : s.Coherent cfg) (able : s.enabled cfg e)
    (detached : (s.next e).attached = false) :
    (s.next e).outstanding = 0 ∧ (s.next e).closing = false ∧ (s.next e).queued = [] ∧ (s.next e).Quiet ∧
      (stackAt (s.next e).calls 0 = [] ∨ stackAt (s.next e).calls 0 = [.finishAttach]) := by
  have sane := coherent.sane
  rcases attached_of_next detached with before | ⟨i, rfl⟩
  · obtain ⟨zero, opened, queued, quiet, stack⟩ := closed.detached before
    cases outside : e.outside with
    | true =>
      have own := own_next sane able outside
      have none := not_dispatches_of_outside sane able outside
      rw [stackAt_next_outside sane outside]
      refine ⟨outstanding_next_of_zero sane coherent.balanced able none zero, ?_, ?_, quiet.of_own own, stack⟩
      · exact (congrArg State.closing own).trans opened
      · exact (congrArg State.queued own).trans queued
    | false =>
      cases e with
      | run i m =>
        obtain ⟨rest, top, _⟩ := enabled_run able
        obtain rfl : i = 0 := by simpa [Event.outside] using outside
        rw [top] at stack
        rcases stack with absurd | last
        · cases absurd
        · obtain ⟨op, _⟩ := List.cons.inj last
          cases m with
          | finishAttach => cases detached
          | _ => cases op
      | call c =>
        obtain rfl := closed.attach_of_call coherent able before
        exact ⟨zero, opened, queued, quiet, .inr (stackAt_next_call sane.loop)⟩
      | progress n =>
        obtain ⟨_, pos, inside⟩ := of_decide_eq_true able
        rw [queued] at inside
        exact absurd inside (Nat.not_le_of_gt pos)
      | success =>
        obtain ⟨_, first⟩ := of_decide_eq_true able
        rw [queued] at first
        cases first
      | failure => exact ((of_decide_eq_true able).2 queued).elim
      | _ => cases outside
  · obtain ⟨rest, top, _⟩ := enabled_run able
    have here := mem_stackAt top
    obtain rfl := sane.eq_zero_of_mem here rfl
    obtain ⟨zero, opened⟩ := coherent.leaving.drained _ here (.inr rfl)
    have quiet := coherent.leaving.quiet here
    have queued : s.queued = [] := by
      apply List.eq_nil_of_length_eq_zero
      rw [← coherent.paired.kept, quiet.2.1]
      rfl
    have alone := coherent.leaving.alone _ here rfl
    exact ⟨zero, opened, queued, quiet, .inl (stackAt_next_run alone)⟩

theorem Closed.next (closed : s.Closed) (coherent : s.Coherent cfg) (able : s.enabled cfg e) :
    (s.next e).Closed where
  opened := closed.opened_next coherent.sane able
  once := closed.once_next coherent.sane able
  drained := closed.drained_next coherent.sane coherent.balanced able
  ordered := closed.ordered_next coherent.sane able
  checked := closed.checked_next coherent.sane able
  marked := closed.marked_next coherent.sane able
  ended := closed.ended_next coherent.sane coherent.balanced able
  detached := closed.detached_next coherent able

theorem closed_of_reach (reached : Reach (step cfg) start s) : s.Closed := by
  have both : s.Coherent cfg ∧ s.Closed := by
    refine Reach.invariant (P := fun s => s.Coherent cfg ∧ s.Closed) ⟨coherent_start, closed_start⟩ ?_ reached
    intro s e t before taken
    obtain ⟨able, rfl⟩ := step_eq_some taken
    exact ⟨before.1.next able, before.2.next before.1 able⟩
  exact both.2

end State

end FluxKV.Connection.Send
