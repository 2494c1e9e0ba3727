import FluxKV.Machine.Calls
import FluxKV.Machine.Run

/-! # The pool of recycled requests

A writer hands a finished batch back as one chain and IO threads take chains before they allocate. The pool is capped by
the requests it holds. A writer adds its chain's length to the counter first, goes on only if the sum is within the cap,
and takes the length off again if it does not or if the queue has no slot; a taker dequeues first and subtracts
afterwards. The counter therefore runs ahead of the queue by what the calls in between owe it.
-/

namespace FluxKV.Engine.RequestPool

open Machine

def kMaxFreeRequests : ℕ := 2 ^ 14

/-- Slots in the queue of chains. -/
def kFreeRequestCap : ℕ := kMaxFreeRequests

/-- Requests that `executePersist` has linked through `hook.next`. The head is given their number. -/
structure Chain (ρ : Type*) where
  head : ρ
  rest : List ρ
  chainLen : ℕ
  measured : chainLen = rest.length + 1
deriving DecidableEq

def Chain.requests {ρ : Type*} (chain : Chain ρ) : List ρ := chain.head :: chain.rest

/-- A call in progress or what it returned. -/
inductive Call (ρ : Type*) where
  /-- `RecycleRequests` has counted the chain, within the cap. -/
  | reserved (chain : Chain ρ)
  /-- It has to take the chain's length off again. -/
  | refused (chain : Chain ρ)
  | recycled
  /-- The caller deletes the chain. -/
  | notRecycled (chain : Chain ρ)
  /-- `TakeRequests` has dequeued the chain. -/
  | taken (chain : Chain ρ)
  | handed (chain : Chain ρ)
deriving DecidableEq

/-- The counter is a 64-bit integer in the source, which no number of chains in memory overflows. -/
structure State (ρ : Type*) where
  freeRequests : List (Chain ρ) := []
  freeRequestCount : ℤ := 0
  calls : List (Call ρ) := []

/-- One access to the counter or the queue. -/
inductive Event (ρ : Type*) where
  /-- `fetch_add` and the comparison of what it returns. -/
  | reserve (chain : Chain ρ)
  /-- The queue takes the chain, or does not. -/
  | write (i : ℕ) (chain : Chain ρ) (stored : Bool)
  /-- `fetch_sub` in `RecycleRequests`. -/
  | undo (i : ℕ) (chain : Chain ρ)
  | read (chain : Chain ρ)
  /-- `TakeRequests` gets nothing from the queue. -/
  | readNothing
  /-- `fetch_sub` in `TakeRequests`. -/
  | subtract (i : ℕ) (chain : Chain ρ)

namespace State

variable {ρ : Type*}

/-- The queue may also fail where it has a slot, or a chain, that another thread is about to release. -/
def enabled (s : State ρ) : Event ρ → Prop
  | .reserve _ | .readNothing => True
  | .write i chain stored =>
    s.calls[i]? = some (.reserved chain) ∧ (stored = true → s.freeRequests.length < kFreeRequestCap)
  | .undo i chain => s.calls[i]? = some (.refused chain)
  | .read chain => s.freeRequests.head? = some chain
  | .subtract i chain => s.calls[i]? = some (.taken chain)

instance [DecidableEq ρ] (s : State ρ) (e : Event ρ) : Decidable (s.enabled e) :=
  match e with
  | .reserve _ | .readNothing => inferInstanceAs (Decidable True)
  | .write .. => inferInstanceAs (Decidable (_ ∧ (_ → _)))
  | .undo .. | .read _ | .subtract .. => inferInstanceAs (Decidable (_ = _))

def next (s : State ρ) : Event ρ → State ρ
  | .reserve chain =>
    let sum := s.freeRequestCount + chain.chainLen
    { s with
      freeRequestCount := sum
      calls := s.calls ++ [if sum > kMaxFreeRequests then .refused chain else .reserved chain] }
  | .write i chain true => { s with freeRequests := s.freeRequests ++ [chain], calls := s.calls.set i .recycled }
  | .write i chain false => { s with calls := s.calls.set i (.refused chain) }
  | .undo i chain =>
    { s with
      freeRequestCount := s.freeRequestCount - chain.chainLen
      calls := s.calls.set i (.notRecycled chain) }
  | .read chain => { s with freeRequests := s.freeRequests.tail, calls := s.calls ++ [.taken chain] }
  | .readNothing => s
  | .subtract i chain =>
    { s with
      freeRequestCount := s.freeRequestCount - chain.chainLen
      calls := s.calls.set i (.handed chain) }

def step [DecidableEq ρ] (s : State ρ) (e : Event ρ) : Option (State ρ) :=
  if s.enabled e then some (s.next e) else none

theorem step_eq_some [DecidableEq ρ] {s t : State ρ} {e : Event ρ} :
    s.step e = some t ↔ s.enabled e ∧ s.next e = t :=
  ite_some_eq_some

/-- The requests in the pool. -/
def held (s : State ρ) : ℕ := (s.freeRequests.map fun chain => chain.requests.length).sum

end State

namespace Call

variable {ρ : Type*}

/-- What the call has added to the counter, or has still to take off it, beyond the chains in the queue. -/
def owed : Call ρ → ℕ
  | reserved chain | refused chain | taken chain => chain.chainLen
  | recycled | notRecycled _ | handed _ => 0

/-- What the call may put into the queue. -/
def granted : Call ρ → ℕ
  | reserved chain => chain.chainLen
  | _ => 0

def inProgress : Call ρ → Bool
  | reserved _ | refused _ | taken _ => true
  | recycled | notRecycled _ | handed _ => false

/-- The chain the call has, or has returned. -/
def chains : Call ρ → List (Chain ρ)
  | reserved chain | refused chain | notRecycled chain | taken chain | handed chain => [chain]
  | recycled => []

theorem granted_le_owed (call : Call ρ) : call.granted ≤ call.owed := by
  cases call with
  | reserved | refused | taken => simp [granted, owed]
  | recycled | notRecycled | handed => exact Nat.le_refl 0

theorem owed_of_not_inProgress {call : Call ρ} (ended : call.inProgress = false) : call.owed = 0 := by
  cases call with
  | reserved | refused | taken => cases ended
  | recycled | notRecycled | handed => rfl

end Call

variable {ρ : Type*}

theorem Chain.length_requests (chain : Chain ρ) : chain.requests.length = chain.chainLen := by
  rw [chain.measured]
  rfl

namespace State

variable {s t : State ρ} {e : Event ρ}

/-- What all calls together owe the counter. -/
def owed (s : State ρ) : ℕ := (s.calls.map Call.owed).sum

def granted (s : State ρ) : ℕ := (s.calls.map Call.granted).sum

theorem granted_le_owed (s : State ρ) : s.granted ≤ s.owed :=
  List.sum_le_sum fun call _ => call.granted_le_owed

/-- The counter is ahead of the queue by what is owed, and there is room for all that was granted. -/
structure Accounted (s : State ρ) : Prop where
  count : s.freeRequestCount = s.held + s.owed
  cap : s.held + s.granted ≤ kMaxFreeRequests

private theorem held_append (s : State ρ) (chain : Chain ρ) (calls : List (Call ρ)) :
    ({ s with freeRequests := s.freeRequests ++ [chain], calls } : State ρ).held = s.held + chain.chainLen := by
  simp [held, chain.length_requests]

private theorem held_tail {chain : Chain ρ} (front : s.freeRequests.head? = some chain) (calls : List (Call ρ)) :
    s.held = ({ s with freeRequests := s.freeRequests.tail, calls } : State ρ).held + chain.chainLen := by
  obtain ⟨rest, queue⟩ := List.head?_eq_some_iff.mp front
  simp only [held, queue, List.map_cons, List.sum_cons, List.tail_cons, chain.length_requests]
  omega

/-- A call that begins adds its own share. -/
private theorem shares_append (s : State ρ) (call : Call ρ) {t : State ρ} (calls : t.calls = s.calls ++ [call]) :
    t.owed = s.owed + call.owed ∧ t.granted = s.granted + call.granted := by
  simp [owed, granted, calls]

/-- A call that moves on trades its share for another. -/
private theorem shares_set {i : ℕ} {old new : Call ρ} (here : s.calls[i]? = some old) {t : State ρ}
    (calls : t.calls = s.calls.set i new) :
    t.owed + old.owed = s.owed + new.owed ∧ t.granted + old.granted = s.granted + new.granted := by
  rw [owed, granted, calls]
  exact ⟨sum_map_set Call.owed here new, sum_map_set Call.granted here new⟩

theorem Accounted.next (acc : s.Accounted) (able : s.enabled e) : (s.next e).Accounted := by
  obtain ⟨count, cap⟩ := acc
  cases e with
  | reserve chain =>
    have less := s.granted_le_owed
    have sum : (s.next (.reserve chain)).freeRequestCount = s.freeRequestCount + chain.chainLen := rfl
    have same : (s.next (.reserve chain)).held = s.held := rfl
    rcases Decidable.em (s.freeRequestCount + chain.chainLen > kMaxFreeRequests) with above | within
    · obtain ⟨owed, granted⟩ := s.shares_append (t := s.next (.reserve chain)) (.refused chain)
        (by rw [State.next, if_pos above])
      simp only [Call.owed, Call.granted] at owed granted
      constructor <;> omega
    · -- what was granted before is part of the sum the thread saw
      obtain ⟨owed, granted⟩ := s.shares_append (t := s.next (.reserve chain)) (.reserved chain)
        (by rw [State.next, if_neg within])
      simp only [Call.owed, Call.granted] at owed granted
      constructor <;> omega
  | write i chain stored =>
    have still : (s.next (.write i chain stored)).freeRequestCount = s.freeRequestCount := by cases stored <;> rfl
    cases stored with
    | true =>
      have more : (s.next (.write i chain true)).held = s.held + chain.chainLen := s.held_append ..
      obtain ⟨owed, granted⟩ := shares_set (t := s.next (.write i chain true)) able.1 rfl
      simp only [Call.owed, Call.granted] at owed granted
      constructor <;> omega
    | false =>
      have same : (s.next (.write i chain false)).held = s.held := rfl
      obtain ⟨owed, granted⟩ := shares_set (t := s.next (.write i chain false)) able.1 rfl
      simp only [Call.owed, Call.granted] at owed granted
      constructor <;> omega
  | undo i chain =>
    have less : (s.next (.undo i chain)).freeRequestCount = s.freeRequestCount - chain.chainLen := rfl
    have same : (s.next (.undo i chain)).held = s.held := rfl
    obtain ⟨owed, granted⟩ := shares_set (t := s.next (.undo i chain)) able rfl
    simp only [Call.owed, Call.granted] at owed granted
    constructor <;> omega
  | read chain =>
    have still : (s.next (.read chain)).freeRequestCount = s.freeRequestCount := rfl
    have less : s.held = (s.next (.read chain)).held + chain.chainLen := held_tail able _
    obtain ⟨owed, granted⟩ := s.shares_append (t := s.next (.read chain)) (.taken chain) rfl
    simp only [Call.owed, Call.granted] at owed granted
    constructor <;> omega
  | readNothing => exact ⟨count, cap⟩
  | subtract i chain =>
    have less : (s.next (.subtract i chain)).freeRequestCount = s.freeRequestCount - chain.chainLen := rfl
    have same : (s.next (.subtract i chain)).held = s.held := rfl
    obtain ⟨owed, granted⟩ := shares_set (t := s.next (.subtract i chain)) able rfl
    simp only [Call.owed, Call.granted] at owed granted
    constructor <;> omega

variable [DecidableEq ρ]

theorem accounted (reached : Reach step ({} : State ρ) s) : s.Accounted := by
  refine Reach.invariant ?_ ?_ reached
  · exact ⟨rfl, Nat.zero_le _⟩
  · intro s e t acc taken
    obtain ⟨able, rfl⟩ := step_eq_some.mp taken
    exact acc.next able

/-- A chain holds at least one request, so the queue has a slot for every chain that was counted in. -/
theorem has_slot {i : ℕ} {chain : Chain ρ} (reached : Reach step ({} : State ρ) s)
    (here : s.calls[i]? = some (.reserved chain)) : s.freeRequests.length < kFreeRequestCap := by
  have cap := (accounted reached).cap
  have own : chain.chainLen ≤ s.granted := weight_le_sum Call.granted here
  have pos := chain.measured
  have slots : s.freeRequests.length ≤ s.held := by
    rw [held, ← List.length_map (f := fun chain : Chain ρ => chain.requests.length)]
    refine List.length_le_sum_of_one_le _ fun n member => ?_
    obtain ⟨c, _, rfl⟩ := List.mem_map.mp member
    exact Nat.succ_le_succ (Nat.zero_le _)
  unfold kFreeRequestCap
  omega

/-- The pool stays within its cap, the counter is never below what the pool holds, and it is exact when no call is in
progress. -/
theorem pool_within_cap {events : List (Event ρ)} (run : exec step ({} : State ρ) events = some s) :
    s.held ≤ kMaxFreeRequests ∧ (s.held : ℤ) ≤ s.freeRequestCount ∧
      ((∀ call ∈ s.calls, call.inProgress = false) → s.freeRequestCount = s.held) := by
  obtain ⟨count, cap⟩ := accounted ⟨events, run⟩
  refine ⟨(Nat.le_add_right ..).trans cap, by omega, fun quiet => ?_⟩
  have settled : s.owed = 0 := by
    refine List.sum_eq_zero fun n member => ?_
    obtain ⟨call, here, rfl⟩ := List.mem_map.mp member
    exact Call.owed_of_not_inProgress (quiet call here)
  omega

/-- One chain is recycled while another is in the middle of it, and the first is taken. -/
def overlapping : List (Event ℕ) :=
  [.reserve ⟨1, [2], 2, rfl⟩, .reserve ⟨3, [], 1, rfl⟩, .write 0 ⟨1, [2], 2, rfl⟩ true, .write 1 ⟨3, [], 1, rfl⟩ true,
    .read ⟨1, [2], 2, rfl⟩, .subtract 2 ⟨1, [2], 2, rfl⟩]

theorem pool_within_cap_at :
    ∃ s, exec step ({} : State ℕ) overlapping = some s ∧ s.held = 1 ∧ s.freeRequestCount = s.held := by
  have run : exec step ({} : State ℕ) overlapping = some _ := rfl
  exact ⟨_, run, rfl, (pool_within_cap run).2.2 (by decide)⟩

/-! ## Chains -/

/-- The chain a call of `RecycleRequests` is given. -/
def Event.given {ρ : Type*} : Event ρ → List (Chain ρ)
  | .reserve chain => [chain]
  | _ => []

omit [DecidableEq ρ] in
theorem chains_next (able : s.enabled e) :
    (s.freeRequests ++ s.calls.flatMap Call.chains ++ Event.given e).Perm
      ((s.next e).freeRequests ++ (s.next e).calls.flatMap Call.chains) := by
  have moved : ∀ {i : ℕ} {old new : Call ρ}, s.calls[i]? = some old → new.chains = old.chains →
      (s.freeRequests ++ s.calls.flatMap Call.chains).Perm
        (s.freeRequests ++ (s.calls.set i new).flatMap Call.chains) := by
    intro i old new here same
    rw [flatMap_set_of_eq here same]
  cases e with
  | reserve chain =>
    have own : Call.chains (if s.freeRequestCount + chain.chainLen > kMaxFreeRequests then .refused chain
      else .reserved chain) = [chain] := by split <;> rfl
    simp only [State.next, Event.given, List.flatMap_append, List.flatMap_singleton, own, List.append_assoc]
    exact .refl _
  | write i chain stored =>
    simp only [Event.given, List.append_nil]
    cases stored with
    | true =>
      have gone : ((s.calls.set i .recycled).flatMap Call.chains ++ [chain]).Perm ([] ++ s.calls.flatMap Call.chains) :=
        flatMap_set_perm able.1 (.refl _)
      simp only [State.next, List.append_assoc]
      exact (gone.symm.trans List.perm_append_comm).append_left _
    | false => exact moved able.1 rfl
  | undo | subtract =>
    simp only [Event.given, List.append_nil]
    exact moved able rfl
  | read chain =>
    obtain ⟨rest, queue⟩ := List.head?_eq_some_iff.mp able
    simp only [State.next, Event.given, queue, List.tail_cons, List.flatMap_append, List.flatMap_singleton, Call.chains,
      List.append_nil, ← List.append_assoc]
    exact (List.perm_append_singleton ..).symm
  | readNothing =>
    simp only [Event.given, List.append_nil]
    exact .refl _

/-- No chain is lost and none is in two hands: those that were recycled are in the queue, with a call, or with the
caller it returned them to. -/
theorem chains_kept {events : List (Event ρ)} (run : exec step ({} : State ρ) events = some s) :
    (events.flatMap Event.given).Perm (s.freeRequests ++ s.calls.flatMap Call.chains) := by
  refine exec_history (P := fun past s => (past.flatMap Event.given).Perm
    (s.freeRequests ++ s.calls.flatMap Call.chains)) (.refl _) ?_ run
  intro past s e t before taken
  obtain ⟨able, rfl⟩ := step_eq_some.mp taken
  rw [List.flatMap_append, List.flatMap_singleton]
  exact (before.append_right _).trans (chains_next able)

/-- A recycled chain is in one place at all times, and there is room for the ones that were counted in: a call that may
put its chain into the queue finds a slot. -/
theorem recycled_chains_are_kept {events : List (Event ρ)} (run : exec step ({} : State ρ) events = some s) :
    (events.flatMap Event.given).Perm (s.freeRequests ++ s.calls.flatMap Call.chains) ∧
      ∀ (i : ℕ) (chain : Chain ρ), s.calls[i]? = some (.reserved chain) → s.freeRequests.length < kFreeRequestCap :=
  ⟨chains_kept run, fun _ _ here => has_slot ⟨events, run⟩ here⟩

theorem recycled_chains_are_kept_overlapping : ∃ s, exec step ({} : State ℕ) (overlapping.take 3) = some s ∧
    s.calls[1]? = some (.reserved ⟨3, [], 1, rfl⟩) ∧ s.freeRequests.length < kFreeRequestCap := by
  have run : exec step ({} : State ℕ) (overlapping.take 3) = some _ := rfl
  exact ⟨_, run, rfl, (recycled_chains_are_kept run).2 1 ⟨3, [], 1, rfl⟩ rfl⟩

end State

end FluxKV.Engine.RequestPool
