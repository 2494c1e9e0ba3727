import Mathlib.Algebra.BigOperators.Group.List.Basic
import Mathlib.Algebra.GroupWithZero.Nat
import Mathlib.Logic.Function.Basic

/-! # Dispatcher counters

A counter of the request path is spread over slots, of which a thread uses one, and is read by adding the slots up in
64-bit words. `outstanding_requests` is what the counters of requests have more than the counters of responses; it
depends on the amounts that were added and not on the slots.
-/

namespace FluxKV.Engine

def kStatSlots : ℕ := 128

instance : NeZero kStatSlots := ⟨by decide⟩

structure HotCounter where
  slots : Vector UInt64 kStatSlots
deriving DecidableEq

namespace HotCounter

def zero : HotCounter := ⟨Vector.replicate kStatSlots 0⟩

def sum (c : HotCounter) : UInt64 := c.slots.toList.foldl (fun t v => t + v) 0

def add (c : HotCounter) (v : UInt64) (slot : Fin kStatSlots) : HotCounter :=
  ⟨c.slots.set slot (c.slots[slot] + v)⟩

theorem foldl_add (slots : List UInt64) (t : UInt64) :
    slots.foldl (fun t v => t + v) t = t + slots.foldl (fun t v => t + v) 0 := by
  induction slots generalizing t with
  | nil => exact (UInt64.add_zero t).symm
  | cons v rest ih => rw [List.foldl_cons, List.foldl_cons, ih (t + v), ih (0 + v), UInt64.zero_add, UInt64.add_assoc]

theorem foldl_set (slots : List UInt64) (i : ℕ) (inRange : i < slots.length) (v : UInt64) :
    (slots.set i (slots[i] + v)).foldl (fun t v => t + v) 0 = slots.foldl (fun t v => t + v) 0 + v := by
  induction slots generalizing i with
  | nil => exact absurd inRange (Nat.not_lt_zero i)
  | cons w rest ih =>
    rw [List.foldl_cons, UInt64.zero_add, foldl_add rest]
    cases i with
    | zero =>
      rw [List.getElem_cons_zero, List.set_cons_zero, List.foldl_cons, UInt64.zero_add, foldl_add rest,
        UInt64.add_assoc, UInt64.add_comm v, UInt64.add_assoc]
    | succ i =>
      rw [List.getElem_cons_succ, List.set_cons_succ, List.foldl_cons, UInt64.zero_add, foldl_add,
        ih i (Nat.lt_of_succ_lt_succ inRange), UInt64.add_assoc]

theorem sum_add (c : HotCounter) (v : UInt64) (slot : Fin kStatSlots) : (c.add v slot).sum = c.sum + v := by
  have inRange : slot.val < c.slots.toList.length := by simp
  have added := foldl_set c.slots.toList slot.val inRange v
  simpa only [sum, add, Vector.toList_set, Fin.getElem_fin, Vector.getElem_toList] using added

end HotCounter

/-- The counters of requests and responses. -/
inductive Counter where
  | cmdSet
  | cmdGet
  | cmdDelete
  | cmdSetResp
  | cmdGetResp
  | cmdSetRespErr
  | cmdGetRespMiss
deriving DecidableEq, Repr

def Counter.isRequest : Counter → Bool
  | cmdSet | cmdGet | cmdDelete => true
  | cmdSetResp | cmdGetResp | cmdSetRespErr | cmdGetRespMiss => false

/-- What a thread adds to the counters, in order. -/
abbrev Bumps := List (Counter × ℕ)

namespace Bumps

def requests (bumps : Bumps) : ℕ := ((bumps.filter fun b => b.1.isRequest).map Prod.snd).sum

def responses (bumps : Bumps) : ℕ := ((bumps.filter fun b => !b.1.isRequest).map Prod.snd).sum

theorem requests_append (first second : Bumps) : (first ++ second).requests = first.requests + second.requests := by
  simp only [requests, List.filter_append, List.map_append, List.sum_append]

theorem responses_append (first second : Bumps) :
    (first ++ second).responses = first.responses + second.responses := by
  simp only [responses, List.filter_append, List.map_append, List.sum_append]

/-- A response counted by ones. -/
theorem responses_map_one {α : Type*} (reqs : List α) {c : Counter} (response : c.isRequest = false) :
    responses (reqs.map fun _ => (c, 1)) = reqs.length := by
  simp [responses, response]

theorem requests_map_one {α : Type*} (reqs : List α) {c : Counter} (response : c.isRequest = false) :
    requests (reqs.map fun _ => (c, 1)) = 0 := by
  simp [requests, response]

end Bumps

/-- `DispatcherStats`, as far as requests and their responses are counted. -/
structure DispatcherStats where
  hot : Counter → HotCounter
  tmpFails : UInt64

namespace DispatcherStats

def initial : DispatcherStats := ⟨fun _ => .zero, 0⟩

/-- `outstanding_requests` of `toJson`. -/
def outstandingRequests (st : DispatcherStats) : UInt64 :=
  (st.hot .cmdSet).sum + (st.hot .cmdGet).sum + (st.hot .cmdDelete).sum - (st.hot .cmdSetResp).sum -
    (st.hot .cmdGetResp).sum - (st.hot .cmdSetRespErr).sum - (st.hot .cmdGetRespMiss).sum

/-- As many responses as requests were counted. -/
def Balanced (st : DispatcherStats) : Prop :=
  (st.hot .cmdSet).sum + (st.hot .cmdGet).sum + (st.hot .cmdDelete).sum =
    (st.hot .cmdSetResp).sum + (st.hot .cmdSetRespErr).sum + (st.hot .cmdGetResp).sum + (st.hot .cmdGetRespMiss).sum

theorem balanced_iff (st : DispatcherStats) : st.Balanced ↔ st.outstandingRequests = 0 := by
  unfold Balanced outstandingRequests
  constructor
  · intro same
    grind
  · intro zero
    grind

theorem outstandingRequests_initial : initial.outstandingRequests = 0 := by decide +kernel

def hotStatAdd (gStatsHotPath : Bool) (slot : Fin kStatSlots) (st : DispatcherStats) (b : Counter × ℕ) :
    DispatcherStats :=
  if gStatsHotPath then
    { st with hot := Function.update st.hot b.1 ((st.hot b.1).add (.ofNat b.2) slot) }
  else st

def hotStatAdds (gStatsHotPath : Bool) (slot : Fin kStatSlots) (st : DispatcherStats) (bumps : Bumps) :
    DispatcherStats :=
  bumps.foldl (hotStatAdd gStatsHotPath slot) st

theorem sum_hotStatAdd (slot : Fin kStatSlots) (st : DispatcherStats) (b : Counter × ℕ) (c : Counter) :
    ((st.hotStatAdd true slot b).hot c).sum = (st.hot c).sum + if c = b.1 then .ofNat b.2 else 0 := by
  simp only [hotStatAdd, if_true, Function.update_apply]
  split
  · next same => rw [same, HotCounter.sum_add]
  · rw [UInt64.add_zero]

theorem outstandingRequests_hotStatAdd (slot : Fin kStatSlots) (st : DispatcherStats) (b : Counter × ℕ) :
    (st.hotStatAdd true slot b).outstandingRequests + .ofNat (Bumps.responses [b]) =
      st.outstandingRequests + .ofNat (Bumps.requests [b]) := by
  obtain ⟨c, v⟩ := b
  have requests : Bumps.requests [(c, v)] = if c.isRequest then v else 0 := by
    cases c <;> simp [Bumps.requests, Counter.isRequest]
  have responses : Bumps.responses [(c, v)] = if c.isRequest then 0 else v := by
    cases c <;> simp [Bumps.responses, Counter.isRequest]
  rw [requests, responses]
  simp only [outstandingRequests, sum_hotStatAdd]
  cases c <;> simp only [Counter.isRequest, reduceCtorEq, if_true, if_false] <;> grind

/-- The slots do not matter, nor the order in which the amounts are added. -/
theorem outstandingRequests_hotStatAdds (slot : Fin kStatSlots) (st : DispatcherStats) (bumps : Bumps) :
    (st.hotStatAdds true slot bumps).outstandingRequests + .ofNat bumps.responses =
      st.outstandingRequests + .ofNat bumps.requests := by
  induction bumps generalizing st with
  | nil => rfl
  | cons b rest ih =>
    have first := outstandingRequests_hotStatAdd slot st b
    have others := ih (st.hotStatAdd true slot b)
    have requests : Bumps.requests (b :: rest) = Bumps.requests [b] + Bumps.requests rest :=
      Bumps.requests_append [b] rest
    have responses : Bumps.responses (b :: rest) = Bumps.responses [b] + Bumps.responses rest :=
      Bumps.responses_append [b] rest
    rw [requests, responses, UInt64.ofNat_add, UInt64.ofNat_add]
    simp only [hotStatAdds, List.foldl_cons] at others ⊢
    grind

theorem tmpFails_hotStatAdds (gStatsHotPath : Bool) (slot : Fin kStatSlots) (st : DispatcherStats) (bumps : Bumps) :
    (st.hotStatAdds gStatsHotPath slot bumps).tmpFails = st.tmpFails := by
  induction bumps generalizing st with
  | nil => rfl
  | cons b rest ih =>
    refine (ih _).trans ?_
    unfold hotStatAdd
    split <;> rfl

end DispatcherStats

end FluxKV.Engine
