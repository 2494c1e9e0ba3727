import FluxKV.Machine.Calls
import FluxKV.Machine.Run

/-! # The mailbox of a loop

A function for a loop is left in its mailbox. Only a poster that finds the mailbox empty wakes the loop, by a closure
that schedules the pump, and the read path schedules it too where it sees the flag. The pump takes the mail under the
lock and runs it. The critical sections of a poster and of the pump exclude one another; everything else interleaves:
the flag is set after the lock is gone, the depth is counted after that, and the wake comes last.
-/

namespace FluxKV.Server.Mailbox

open Machine

/-- What a call of `Post` does next. -/
inductive Stage where
  | flag
  | count
  | wake
  | returned
deriving DecidableEq, Repr

/-- A call of `Post` that has appended its function, and if the mailbox was empty then. -/
structure Poster where
  first : Bool
  stage : Stage
deriving DecidableEq, Repr

/-- Where the loop is in `runLoopCallback`. It holds the lock from the swap to the clearing of the flag. -/
inductive Pump where
  | idle
  | started
  | swapped
  | unlocked
  | running
deriving DecidableEq, Repr

/-- The batch is what the pump has taken and not run. The wake closures that are queued are all the same, and the depth
is what the loop adds to `gMailDepth`. -/
structure State (φ : Type*) where
  mail : List φ := []
  hasMail : Bool := false
  depth : ℤ := 0
  posters : List Poster := []
  wakes : ℕ := 0
  scheduled : Bool := false
  pump : Pump := .idle
  batch : List φ := []
  ran : List φ := []

inductive Event (φ : Type*) where
  /-- A call of `Post` appends its function. -/
  | post (fn : φ)
  | setHasMail (i : ℕ) (poster : Poster)
  | addDepth (i : ℕ) (poster : Poster)
  | queueWake (i : ℕ) (poster : Poster)
  /-- A wake closure runs. -/
  | wake
  /-- `readDataAvailable` finds the flag set and the pump not scheduled. Any other read does nothing to the mailbox. -/
  | read
  /-- The loop runs the pump's callback. -/
  | startPump
  | swap
  | clearHasMail
  | subDepth
  | run
  | finishPump

/-- The function an event appends. -/
def Event.posted {φ : Type*} : Event φ → List φ
  | post fn => [fn]
  | _ => []

namespace State

variable {φ : Type*}

def enabled (s : State φ) : Event φ → Prop
  | .post _ => s.pump ≠ .swapped
  | .setHasMail i poster => s.posters[i]? = some poster ∧ poster.stage = .flag
  | .addDepth i poster => s.posters[i]? = some poster ∧ poster.stage = .count
  | .queueWake i poster => s.posters[i]? = some poster ∧ poster.stage = .wake
  -- A function that the pump runs may read from a socket, but the pump itself does nothing else.
  | .wake => (s.pump = .idle ∨ s.pump = .running) ∧ 0 < s.wakes
  | .read => (s.pump = .idle ∨ s.pump = .running) ∧ s.hasMail = true ∧ s.scheduled = false
  | .startPump => s.pump = .idle ∧ s.scheduled = true
  | .swap => s.pump = .started
  | .clearHasMail => s.pump = .swapped
  | .subDepth => s.pump = .unlocked
  | .run => s.pump = .running ∧ s.batch.isEmpty = false
  | .finishPump => s.pump = .running ∧ s.batch.isEmpty = true

instance (s : State φ) (e : Event φ) : Decidable (s.enabled e) :=
  match e with
  | .post _ => inferInstanceAs (Decidable (_ ≠ _))
  | .setHasMail .. | .addDepth .. | .queueWake .. => inferInstanceAs (Decidable (_ ∧ _))
  | .wake => inferInstanceAs (Decidable ((_ ∨ _) ∧ _))
  | .read => inferInstanceAs (Decidable ((_ ∨ _) ∧ _ ∧ _))
  | .startPump | .run | .finishPump => inferInstanceAs (Decidable (_ ∧ _))
  | .swap | .clearHasMail | .subDepth => inferInstanceAs (Decidable (_ = _))

def next (s : State φ) : Event φ → State φ
  | .post fn => { s with mail := s.mail ++ [fn], posters := s.posters ++ [⟨s.mail.isEmpty, .flag⟩] }
  | .setHasMail i poster => { s with hasMail := true, posters := s.posters.set i { poster with stage := .count } }
  | .addDepth i poster =>
    { s with
      depth := s.depth + 1
      posters := s.posters.set i { poster with stage := if poster.first then .wake else .returned } }
  | .queueWake i poster =>
    { s with wakes := s.wakes + 1, posters := s.posters.set i { poster with stage := .returned } }
  | .wake => { s with wakes := s.wakes - 1, scheduled := true }
  | .read => { s with scheduled := true }
  | .startPump => { s with scheduled := false, pump := .started }
  | .swap => { s with pump := .swapped, batch := s.mail, mail := [] }
  | .clearHasMail => { s with pump := .unlocked, hasMail := false }
  | .subDepth => { s with pump := .running, depth := s.depth - s.batch.length }
  | .run => { s with batch := s.batch.tail, ran := s.ran ++ s.batch.take 1 }
  | .finishPump => { s with pump := .idle }

def step (s : State φ) (e : Event φ) : Option (State φ) := if s.enabled e then some (s.next e) else none

theorem step_eq_some {s t : State φ} {e : Event φ} : s.step e = some t ↔ s.enabled e ∧ s.next e = t :=
  ite_some_eq_some

/-- Someone will see to the mail: the pump that is scheduled or has not swapped yet, a wake closure, or a poster that
has to queue one. -/
def Responsible (s : State φ) : Prop :=
  s.scheduled = true ∨ s.pump = .started ∨ 0 < s.wakes ∨
    ∃ poster ∈ s.posters, poster.first = true ∧ poster.stage ≠ .returned

end State

/-- The poster has not counted its function. -/
def Poster.uncounted (poster : Poster) : ℕ :=
  match poster.stage with
  | .flag => 1
  | .count => 1
  | _ => 0

namespace State

variable {φ : Type*} {s t : State φ} {e : Event φ}

/-- The part of the batch that is still in the depth. -/
def unsubtracted (s : State φ) : ℕ :=
  match s.pump with
  | .swapped => s.batch.length
  | .unlocked => s.batch.length
  | _ => 0

/-- The functions that were posted, in their order: those that have run, those the pump has, and the mail. The pump has
none before it has swapped. -/
structure InOrder (posted : List φ) (s : State φ) : Prop where
  order : posted = s.ran ++ s.batch ++ s.mail
  idle : s.pump = .idle ∨ s.pump = .started → s.batch = []

theorem InOrder.next {posted : List φ} (kept : InOrder posted s) (able : s.enabled e) :
    InOrder (posted ++ e.posted) (s.next e) := by
  obtain ⟨order, idle⟩ := kept
  cases e with
  | post fn => exact ⟨by simp only [order, State.next, Event.posted, List.append_assoc], idle⟩
  | startPump => exact ⟨(List.append_nil _).trans order, fun _ => idle (.inl able.1)⟩
  | swap =>
    have none := idle (.inr able)
    refine ⟨?_, fun other => absurd other (by simp [State.next])⟩
    simp only [order, none, State.next, Event.posted, List.append_nil]
  | clearHasMail | subDepth => exact ⟨(List.append_nil _).trans order, fun other => absurd other (by simp [State.next])⟩
  | run =>
    refine ⟨?_, fun other => absurd other (by simp [State.next, able.1])⟩
    cases batch : s.batch with
    | nil => exact absurd able.2 (by simp [batch])
    | cons fn rest => simp [order, batch, State.next, Event.posted]
  | finishPump => exact ⟨(List.append_nil _).trans order, fun _ => List.isEmpty_iff.mp able.2⟩
  | setHasMail | addDepth | queueWake | wake | read => exact ⟨(List.append_nil _).trans order, idle⟩

/-- A poster that goes on and does not return without a wake stays responsible. -/
theorem exists_waker_set {i : ℕ} {old new : Poster} (here : s.posters[i]? = some old) (same : new.first = old.first)
    (busy : old.first = true → new.stage ≠ .returned)
    (found : ∃ poster ∈ s.posters, poster.first = true ∧ poster.stage ≠ .returned) :
    ∃ poster ∈ s.posters.set i new, poster.first = true ∧ poster.stage ≠ .returned := by
  rcases Decidable.em (old.first = true) with waker | other
  · exact ⟨new, mem_set_self here new, same.trans waker, busy waker⟩
  · exact exists_mem_set here (fun holds => other holds.1) new found

/-- Beyond the swap the pump is not responsible for the mail. -/
theorem Responsible.of_pump {t : State φ} (responsible : s.Responsible) (past : s.pump ≠ .started)
    (scheduled : t.scheduled = s.scheduled) (wakes : t.wakes = s.wakes) (posters : t.posters = s.posters) :
    t.Responsible := by
  unfold Responsible
  rw [scheduled, wakes, posters]
  exact responsible.imp_right fun rest => .inr (rest.resolve_left past)

theorem responsible_next (responsible : s.mail ≠ [] → s.Responsible) (able : s.enabled e) :
    (s.next e).mail ≠ [] → (s.next e).Responsible := by
  intro mail
  cases e with
  | post fn =>
    cases before : s.mail with
    | nil => exact .inr (.inr (.inr ⟨⟨true, .flag⟩, by simp [State.next, before], rfl, by decide⟩))
    | cons =>
      refine (responsible (by simp [before])).imp_right (.imp_right (.imp_right ?_))
      rintro ⟨poster, member, found⟩
      exact ⟨poster, List.mem_append_left _ member, found⟩
  | setHasMail i poster =>
    refine (responsible mail).imp_right (.imp_right (.imp_right ?_))
    exact exists_waker_set able.1 rfl fun _ => by simp
  | addDepth i poster =>
    refine (responsible mail).imp_right (.imp_right (.imp_right ?_))
    exact exists_waker_set able.1 rfl fun first => by simp [first]
  | queueWake => exact .inr (.inr (.inl (Nat.succ_pos _)))
  | wake | read => exact .inl rfl
  | startPump => exact .inr (.inl rfl)
  | swap => exact absurd rfl mail
  | clearHasMail | subDepth => exact (responsible mail).of_pump (able.trans_ne (by decide)) rfl rfl rfl
  | run => exact responsible mail
  | finishPump => exact (responsible mail).of_pump (able.1.trans_ne (by decide)) rfl rfl rfl

/-- The depth is what is in the mailbox and in the batch, but for what is counted late. -/
def DepthKept (s : State φ) : Prop :=
  s.depth + (s.posters.map Poster.uncounted).sum = s.mail.length + s.unsubtracted

theorem DepthKept.set {i : ℕ} {old new : Poster} (kept : s.DepthKept) (here : s.posters[i]? = some old)
    (posters : t.posters = s.posters.set i new) (mail : t.mail = s.mail) (taken : t.unsubtracted = s.unsubtracted)
    (counted : t.depth + new.uncounted = s.depth + old.uncounted) : t.DepthKept := by
  have sum := sum_map_set Poster.uncounted here new
  unfold DepthKept at kept ⊢
  rw [posters, mail, taken]
  omega

theorem DepthKept.next (kept : s.DepthKept) (able : s.enabled e) : (s.next e).DepthKept := by
  cases e with
  | post fn =>
    unfold DepthKept at kept ⊢
    have same : (s.next (.post fn)).unsubtracted = s.unsubtracted := rfl
    rw [same]
    simp only [State.next, List.map_append, List.sum_append, List.length_append, List.map_singleton,
      List.sum_singleton, Poster.uncounted, List.length_singleton]
    omega
  | setHasMail | queueWake =>
    refine kept.set able.1 rfl rfl rfl ?_
    simp only [State.next, Poster.uncounted, able.2]
  | addDepth i poster =>
    refine kept.set able.1 rfl rfl rfl ?_
    cases first : poster.first <;> simp [State.next, Poster.uncounted, able.2, first]
  | wake | read => exact kept
  | startPump | run | finishPump =>
    simp only [DepthKept, unsubtracted, State.next, able.1] at kept ⊢
    exact kept
  | swap =>
    have able : s.pump = .started := able
    simp only [DepthKept, unsubtracted, State.next, able, List.length_nil] at kept ⊢
    omega
  | clearHasMail =>
    have able : s.pump = .swapped := able
    simp only [DepthKept, unsubtracted, State.next, able] at kept ⊢
    exact kept
  | subDepth =>
    have able : s.pump = .unlocked := able
    simp only [DepthKept, unsubtracted, State.next, able] at kept ⊢
    omega

end State

/-! ## What is left to do -/

/-- Bounds on the steps a call of `Post` still causes: a run of the pump takes six steps without its functions, the
flag may bring one more read, and a wake closure is queued and run. -/
def Poster.work (poster : Poster) : ℕ :=
  match poster.stage with
  | .flag => 9 + if poster.first then 8 else 0
  | .count => 1 + if poster.first then 8 else 0
  | .wake => 8
  | .returned => 0

def Pump.work : Pump → ℕ
  | idle => 0
  | started => 5
  | swapped => 4
  | unlocked => 3
  | running => 2

/-- Whether the pump will clear the flag before the loop reads it. -/
def Pump.clears : Pump → Bool
  | started => true
  | swapped => true
  | _ => false

namespace State

variable {φ : Type*} {s t : State φ} {e : Event φ}

/-- The run of the pump that is due. -/
def dueWork (s : State φ) : ℕ :=
  if s.scheduled then 6 else if s.hasMail && !s.pump.clears then 7 else 0

def work (s : State φ) : ℕ :=
  (s.posters.map Poster.work).sum + 7 * s.wakes + s.mail.length + s.batch.length + s.pump.work + s.dueWork

theorem dueWork_le (s : State φ) : s.dueWork ≤ 7 := by
  unfold dueWork
  split_ifs <;> omega

theorem work_set {i : ℕ} {old new : Poster} (here : s.posters[i]? = some old)
    (posters : t.posters = s.posters.set i new) (mail : t.mail = s.mail) (batch : t.batch = s.batch)
    (pump : t.pump = s.pump)
    (less : new.work + 7 * t.wakes + t.dueWork < old.work + 7 * s.wakes + s.dueWork) : t.work < s.work := by
  have sum := sum_map_set Poster.work here new
  unfold work
  rw [posters, mail, batch, pump]
  omega

/-- Each step but an append brings the end nearer. -/
theorem work_next (able : s.enabled e) (internal : e.posted = []) : (s.next e).work < s.work := by
  cases e with
  | post fn => cases internal
  | setHasMail i poster =>
    have due := (s.next (.setHasMail i poster)).dueWork_le
    refine work_set able.1 rfl rfl rfl rfl ?_
    simp only [Poster.work, able.2]
    show 1 + _ + 7 * s.wakes + _ < _
    omega
  | addDepth i poster =>
    have same : (s.next (.addDepth i poster)).dueWork = s.dueWork := rfl
    refine work_set able.1 rfl rfl rfl rfl ?_
    rw [same]
    show _ + 7 * s.wakes + _ < _
    cases first : poster.first <;> simp [Poster.work, able.2, first]
  | queueWake i poster =>
    have same : (s.next (.queueWake i poster)).dueWork = s.dueWork := rfl
    refine work_set able.1 rfl rfl rfl rfl ?_
    rw [same]
    simp only [Poster.work, able.2, State.next]
    omega
  | wake =>
    have due : (s.next .wake).dueWork = 6 := rfl
    have some := able.2
    rw [work, work, due]
    simp only [State.next]
    omega
  | read =>
    obtain ⟨place, flag, unscheduled⟩ := able
    have due : s.dueWork = 7 := by
      rcases place with idle | running
      · simp [dueWork, flag, unscheduled, idle, Pump.clears]
      · simp [dueWork, flag, unscheduled, running, Pump.clears]
    have due' : (s.next .read).dueWork = 6 := rfl
    rw [work, work, due, due']
    simp only [State.next]
    omega
  | startPump =>
    have due : s.dueWork = 6 := by simp [dueWork, able.2]
    have due' : (s.next .startPump).dueWork = 0 := by simp [dueWork, State.next, Pump.clears]
    rw [work, work, due, due']
    simp only [State.next, able.1, Pump.work]
    omega
  | swap =>
    have able : s.pump = .started := able
    have same : (s.next .swap).dueWork = s.dueWork := by simp [dueWork, State.next, Pump.clears, able]
    rw [work, work, same]
    simp only [State.next, able, Pump.work, List.length_nil]
    omega
  | clearHasMail =>
    have able : s.pump = .swapped := able
    have same : (s.next .clearHasMail).dueWork = s.dueWork := by simp [dueWork, State.next, Pump.clears, able]
    rw [work, work, same]
    simp only [State.next, able, Pump.work]
    omega
  | subDepth =>
    have able : s.pump = .unlocked := able
    have same : (s.next .subDepth).dueWork = s.dueWork := by simp [dueWork, State.next, Pump.clears, able]
    rw [work, work, same]
    simp only [State.next, able, Pump.work]
    omega
  | run =>
    have same : (s.next .run).dueWork = s.dueWork := rfl
    have some : 0 < s.batch.length := List.length_pos_iff.mpr (List.isEmpty_eq_false_iff.mp able.2)
    rw [work, work, same]
    simp only [State.next, List.length_tail]
    omega
  | finishPump =>
    have same : (s.next .finishPump).dueWork = s.dueWork := by simp [dueWork, State.next, Pump.clears, able.1]
    rw [work, work, same]
    simp only [State.next, able.1, Pump.work]
    omega

/-- Nothing but an append can happen. -/
def Quiet (s : State φ) : Prop := ∀ e : Event φ, e.posted = [] → ¬ s.enabled e

theorem Quiet.done (quiet : s.Quiet) (responsible : s.mail ≠ [] → s.Responsible) :
    s.mail = [] ∧ s.pump = .idle ∧ ∀ poster ∈ s.posters, poster.stage = .returned := by
  have idle : s.pump = .idle := by
    cases pump : s.pump with
    | idle => rfl
    | started => exact absurd pump (quiet .swap rfl)
    | swapped => exact absurd pump (quiet .clearHasMail rfl)
    | unlocked => exact absurd pump (quiet .subDepth rfl)
    | running =>
      cases batch : s.batch.isEmpty with
      | true => exact absurd ⟨pump, batch⟩ (quiet .finishPump rfl)
      | false => exact absurd ⟨pump, batch⟩ (quiet .run rfl)
  have returned : ∀ poster ∈ s.posters, poster.stage = .returned := by
    intro poster member
    obtain ⟨i, here⟩ := List.mem_iff_getElem?.mp member
    cases stage : poster.stage with
    | flag => exact absurd ⟨here, stage⟩ (quiet (.setHasMail i poster) rfl)
    | count => exact absurd ⟨here, stage⟩ (quiet (.addDepth i poster) rfl)
    | wake => exact absurd ⟨here, stage⟩ (quiet (.queueWake i poster) rfl)
    | returned => rfl
  refine ⟨?_, idle, returned⟩
  by_contra mail
  rcases responsible mail with scheduled | started | wakes | ⟨poster, member, _, busy⟩
  · exact quiet .startPump rfl ⟨idle, scheduled⟩
  · exact absurd (idle.symm.trans started) (by decide)
  · exact quiet .wake rfl ⟨.inl idle, wakes⟩
  · exact busy (returned poster member)

theorem work_exec {es : List (Event φ)} (run : exec step s es = some t) (internal : ∀ e ∈ es, e.posted = []) :
    es.length + t.work ≤ s.work := by
  induction es generalizing s with
  | nil =>
    cases run
    rw [List.length_nil, Nat.zero_add]
  | cons e rest ih =>
    obtain ⟨first, others⟩ := List.forall_mem_cons.mp internal
    obtain ⟨next, taken, run⟩ := exec_cons_eq_some.mp run
    obtain ⟨able, rfl⟩ := step_eq_some.mp taken
    have less := work_next able first
    have tail := ih run others
    rw [List.length_cons]
    omega

/-- What holds of the mailbox and the functions that were posted so far. -/
structure Kept (posted : List φ) (s : State φ) : Prop where
  inOrder : InOrder posted s
  responsible : s.mail ≠ [] → s.Responsible
  depth : s.DepthKept

theorem kept_of_exec {es : List (Event φ)} (run : exec step {} es = some s) : Kept (es.flatMap Event.posted) s := by
  have start : Kept [] ({} : State φ) := ⟨⟨rfl, fun _ => rfl⟩, fun mail => absurd rfl mail, rfl⟩
  refine exec_history (P := fun past s => Kept (past.flatMap Event.posted) s) start ?_ run
  intro past s e t kept taken
  obtain ⟨able, rfl⟩ := step_eq_some.mp taken
  rw [List.flatMap_append, List.flatMap_singleton]
  exact ⟨kept.inOrder.next able, responsible_next kept.responsible able, kept.depth.next able⟩

/-- Where all functions have run and all posters have returned, nothing is left in the depth. -/
theorem Kept.depth_eq_zero {posted : List φ} (kept : Kept posted s) (all : s.ran = posted)
    (returned : ∀ poster ∈ s.posters, poster.stage = .returned) : s.depth = 0 := by
  have order := congrArg List.length kept.inOrder.order
  have depth := kept.depth
  have counted : (s.posters.map Poster.uncounted).sum = 0 := by
    refine List.sum_eq_zero_iff.mpr fun n member => ?_
    obtain ⟨poster, inside, rfl⟩ := List.mem_map.mp member
    simp only [Poster.uncounted, returned poster inside]
  have taken : s.unsubtracted ≤ s.batch.length := by
    unfold unsubtracted
    split <;> omega
  rw [← all, List.length_append, List.length_append] at order
  unfold DepthKept at depth
  omega

end State

/-- The mailbox loses and repeats nothing: the functions that were posted have run, are with the pump or are in the
mail, in this order; someone will see to the mail; the depth is given back; and unless more is posted, the loop and
the posters come to an end after a bounded number of steps, with all functions run. -/
structure Delivers {φ : Type*} (posted : List φ) (s : State φ) : Prop where
  order : posted = s.ran ++ s.batch ++ s.mail
  responsible : s.mail ≠ [] → s.Responsible
  depth : s.ran = posted → (∀ poster ∈ s.posters, poster.stage = .returned) → s.depth = 0
  ends : ∀ es t, exec State.step s es = some t → (∀ e ∈ es, e.posted = []) →
    es.length ≤ s.work ∧ ((∀ e : Event φ, e.posted = [] → t.step e = none) → t.ran = posted ∧ t.depth = 0)

theorem mailbox_runs_each_function_once {φ : Type*} {tape : List (Event φ)} {s : State φ}
    (run : exec State.step {} tape = some s) : Delivers (tape.flatMap Event.posted) s := by
  have kept := State.kept_of_exec run
  refine ⟨kept.inOrder.order, kept.responsible, kept.depth_eq_zero, fun es t rest internal => ⟨?_, fun stuck => ?_⟩⟩
  · exact Nat.le_of_add_right_le (State.work_exec rest internal)
  · have later : State.Kept (tape.flatMap Event.posted) t := by
      have whole : exec State.step {} (tape ++ es) = some t := by rw [exec_append, run, Option.bind_some, rest]
      have kept := State.kept_of_exec whole
      rwa [List.flatMap_append, List.flatMap_eq_nil_iff.mpr internal, List.append_nil] at kept
    have quiet : t.Quiet := by
      intro e own able
      exact absurd (stuck e own) (by simp [State.step, able])
    obtain ⟨mail, idle, returned⟩ := quiet.done later.responsible
    have all : t.ran = tape.flatMap Event.posted := by
      rw [later.inOrder.order, mail, later.inOrder.idle (.inl idle), List.append_nil, List.append_nil]
    exact ⟨all, later.depth_eq_zero all returned⟩

/-- Two functions are posted and run, while a third one comes after the swap. -/
def crossing : List (Event ℕ) :=
  [.post 1, .post 2, .setHasMail 0 ⟨true, .flag⟩, .addDepth 0 ⟨true, .count⟩, .queueWake 0 ⟨true, .wake⟩, .wake,
    .startPump, .swap, .setHasMail 1 ⟨false, .flag⟩, .clearHasMail, .post 3, .subDepth, .run, .run, .finishPump,
    .addDepth 1 ⟨false, .count⟩]

theorem mailbox_runs_each_function_once_crossing : ∃ s : State ℕ, exec State.step {} crossing = some s ∧
    s.ran = [1, 2] ∧ s.mail = [3] ∧ s.depth = 0 ∧ Delivers [1, 2, 3] s := by
  obtain ⟨s, run, first, second, third⟩ : ∃ s : State ℕ, exec State.step {} crossing = some s ∧ s.ran = [1, 2] ∧
      s.mail = [3] ∧ s.depth = 0 := exists_exec (by decide +kernel)
  exact ⟨s, run, first, second, third, mailbox_runs_each_function_once run⟩

end FluxKV.Server.Mailbox
