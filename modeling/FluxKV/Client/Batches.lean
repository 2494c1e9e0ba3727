import FluxKV.Client.Requests
import FluxKV.Client.ResponseCounter
import FluxKV.Machine.Run

/-! # Loading the key space in batches

A connection sends a batch, reads as many responses and goes on. A load takes its keys from a cursor that walks the
key space in strides of the number of connections, and first from the stack of those that were refused. Cursor and
counts are 64-bit words: a connection whose cursor or whose count of what remains wraps around never takes a key
again, and so never runs out of keys. One that does has written its share, each key once.
-/

namespace FluxKV.Client

open Machine Counting

def kStatusTmpFail : UInt16 := 0x0086

/-- The options that choose the keys. -/
structure Workload where
  doSet : Bool
  zipfOn : Bool := false
  random : Bool := false
  conns : UInt64
  pipeline : UInt64
  keys : UInt64

namespace Workload

variable (w : Workload)

/-- What `main` demands. -/
def Accepted : Prop := w.conns ≠ 0 ∧ w.pipeline ≠ 0 ∧ w.keys ≠ 0

instance : Decidable w.Accepted := inferInstanceAs (Decidable (_ ∧ _ ∧ _))

def strideLoad : Bool := w.doSet && !w.zipfOn && !w.random

def op : Op := if w.doSet then .set else .get

end Workload

/-- What a connection takes from a response. -/
structure Reply where
  opaqueId : UInt32
  status : UInt16
deriving DecidableEq, Repr

/-- What goes over a connection. -/
inductive Entry where
  | sent (key : UInt64)
  | answered (key : UInt64) (status : UInt16)
deriving DecidableEq, Repr

def Entry.key : Entry → UInt64
  | sent key => key
  | answered key _ => key

namespace Batches

/-- How a thread ends. -/
inductive Finish where
  | outOfKeys
  | stopped
  | broken
deriving DecidableEq, Repr

/-- `runConnection` between two rounds of its loop. The stack of refused keys has its back first, and the log is what
went over the connection so far. -/
structure Thread where
  setCursor : UInt64
  retry : List UInt64
  keyOfSlot : List UInt64
  result : Result := {}
  retries : ℕ := 0
  finish : Option Finish := none
  log : List Entry := []

/-- How the batch of a round fares: it is not written, or its responses are read until one is lost or is not a
response, or all of them are. -/
inductive Reading where
  | unsent
  | lost (replies : List Reply)
  | foreign (replies : List Reply)
  | all (replies : List Reply)

/-- A test of the stop flag, or a round with the keys `pickKey` would choose in it. -/
inductive Event where
  | stop
  | round (pick : ℕ → UInt64) (reading : Reading)

section Round

variable (w : Workload)

def start (threadIndex : ℕ) : Thread where
  setCursor := .ofNat threadIndex
  retry := []
  keyOfSlot := List.replicate w.pipeline.toNat 0

/-- The connection's share of the key space is written. -/
def Exhausted (t : Thread) : Prop := w.strideLoad ∧ w.keys ≤ t.setCursor ∧ t.retry = []

instance (t : Thread) : Decidable (Exhausted w t) := inferInstanceAs (Decidable (_ ∧ _ ∧ _))

def remaining (t : Thread) : UInt64 :=
  if w.keys ≤ t.setCursor then 0 else (w.keys - t.setCursor + w.conns - 1) / w.conns

def batch (t : Thread) : UInt64 :=
  if w.strideLoad then min w.pipeline (remaining w t + .ofNat t.retry.length) else w.pipeline

/-- The key of the next request. -/
def nextKey (pick : UInt64) (t : Thread) : UInt64 × Thread :=
  if w.strideLoad then
    match t.retry with
    | key :: rest => (key, { t with retry := rest })
    | [] => (t.setCursor, { t with setCursor := t.setCursor + w.conns })
  else (pick, t)

/-- The requests of a round from the one in slot `i` on. -/
def fill (pick : ℕ → UInt64) : ℕ → ℕ → Thread → Thread × List Ask
  | _, 0, t => (t, [])
  | i, n + 1, t =>
    let (key, t) := nextKey w (pick i) t
    let (t, asks) := fill pick (i + 1) n { t with keyOfSlot := t.keyOfSlot.set i key }
    (t, ⟨w.op, key, .ofNat i⟩ :: asks)

/-- The `i`-th response of a round of `batch` requests. -/
def receive (batch i : ℕ) (t : Thread) (reply : Reply) : Thread :=
  let slot := if reply.opaqueId.toNat < batch then reply.opaqueId.toNat else i
  if w.strideLoad ∧ reply.status = kStatusTmpFail then
    { t with
      retry := t.keyOfSlot.getD slot 0 :: t.retry
      retries := t.retries + 1
      result := { t.result with
        statusCounts := Function.update t.result.statusCounts reply.status
          (t.result.statusCounts reply.status + 1) } }
  else { t with result := t.result.count reply.status }

/-- The responses of a round from the `i`-th on. -/
def receiveAll (batch : ℕ) : ℕ → List Reply → Thread → Thread
  | _, [], t => t
  | i, reply :: rest, t => receiveAll batch (i + 1) rest (receive w batch i t reply)

end Round

/-- A response answers the request with its opaque. -/
def answers (asks : List Ask) (replies : List Reply) : List Entry :=
  replies.flatMap fun reply =>
    (asks.filter fun ask => ask.opaqueId = reply.opaqueId).map fun ask => .answered ask.keyIndex reply.status

/-- The responses that are read, all of them before anything goes wrong. -/
def Reading.replies : Reading → List Reply
  | unsent => []
  | lost replies => replies
  | foreign replies => replies
  | all replies => replies

section Step

variable (w : Workload)

/-- A round that sends something, after the requests and the responses were logged. -/
def exchange (pick : ℕ → UInt64) (reading : Reading) (t : Thread) : Thread :=
  let n := (batch w t).toNat
  let (t, asks) := fill w pick 0 n t
  let t := { t with log := t.log ++ (asks.map fun ask => .sent ask.keyIndex) ++ answers asks reading.replies }
  receiveAll w n 0 reading.replies t

/-- A connection that is given up, with the errors this counts. -/
def giveUp (errors : ℕ) (t : Thread) : Thread :=
  { t with result := { t.result with errors := t.result.errors + errors }, finish := some .broken }

def round (pick : ℕ → UInt64) (reading : Reading) (t : Thread) : Option Thread :=
  let n := (batch w t).toNat
  let next := exchange w pick reading t
  match reading with
  | .unsent => some (giveUp 1 next)
  | .lost replies => if replies.length < n then some (giveUp 1 next) else none
  | .foreign replies => if replies.length < n then some (giveUp 2 next) else none
  | .all replies => if replies.length = n then some next else none

def step (t : Thread) (e : Event) : Option Thread :=
  if t.finish ≠ none then none
  else
    match e with
    | .stop => some { t with finish := some .stopped }
    | .round pick reading =>
      if Exhausted w t then some { t with finish := some .outOfKeys } else round w pick reading t

/-- The server answers each opaque of a batch once, in any order, with success or a temporary failure. -/
def Served (t : Thread) : Event → Prop
  | .round pick (.all replies) =>
    (replies.map Reply.opaqueId).Perm ((fill w pick 0 (batch w t).toNat t).2.map Ask.opaqueId).dedup ∧
      ∀ reply ∈ replies, reply.status = 0 ∨ reply.status = kStatusTmpFail
  | _ => True

instance (t : Thread) (e : Event) : Decidable (Served w t e) := by
  unfold Served
  split <;> infer_instance

end Step

/-! ## The requests of a round -/

section Fill

variable {w : Workload} {pick : ℕ → UInt64}

theorem fill_succ (i n : ℕ) (t : Thread) :
    fill w pick i (n + 1) t =
      let first := nextKey w (pick i) t
      let rest := fill w pick (i + 1) n { first.2 with keyOfSlot := first.2.keyOfSlot.set i first.1 }
      (rest.1, ⟨w.op, first.1, .ofNat i⟩ :: rest.2) := rfl

theorem nextKey_keyOfSlot (key : UInt64) (t : Thread) : (nextKey w key t).2.keyOfSlot = t.keyOfSlot := by
  unfold nextKey
  split
  · split <;> rfl
  · rfl

theorem nextKey_frame (key : UInt64) (t : Thread) :
    (nextKey w key t).2.finish = t.finish ∧ (nextKey w key t).2.log = t.log := by
  unfold nextKey
  split
  · split <;> exact ⟨rfl, rfl⟩
  · exact ⟨rfl, rfl⟩

theorem fill_frame (i n : ℕ) (t : Thread) :
    (fill w pick i n t).1.finish = t.finish ∧ (fill w pick i n t).1.log = t.log := by
  induction n generalizing i t with
  | zero => exact ⟨rfl, rfl⟩
  | succ n ih =>
    obtain ⟨finish, log⟩ := nextKey_frame (w := w) (pick i) t
    rw [fill_succ]
    exact ⟨(ih ..).1.trans finish, (ih ..).2.trans log⟩

theorem fill_ids (i n : ℕ) (t : Thread) :
    (fill w pick i n t).2.map Ask.opaqueId = (List.range' i n).map UInt32.ofNat := by
  induction n generalizing i t with
  | zero => rfl
  | succ n ih =>
    rw [fill_succ, List.range'_succ, List.map_cons, List.map_cons]
    exact congrArg _ (ih ..)

theorem length_fill (i n : ℕ) (t : Thread) : (fill w pick i n t).2.length = n := by
  rw [← List.length_map Ask.opaqueId, fill_ids, List.length_map, List.length_range']

theorem length_keyOfSlot_fill (i n : ℕ) (t : Thread) :
    (fill w pick i n t).1.keyOfSlot.length = t.keyOfSlot.length := by
  induction n generalizing i t with
  | zero => rfl
  | succ n ih => exact (ih ..).trans ((List.length_set ..).trans (congrArg _ (nextKey_keyOfSlot ..)))

theorem keyOfSlot_fill_before {i j : ℕ} (n : ℕ) (before : j < i) (t : Thread) :
    (fill w pick i n t).1.keyOfSlot[j]? = t.keyOfSlot[j]? := by
  induction n generalizing i t with
  | zero => rfl
  | succ n ih =>
    rw [fill_succ]
    refine (ih (Nat.lt_succ_of_lt before) _).trans ?_
    rw [List.getElem?_set_ne (Nat.ne_of_gt before), nextKey_keyOfSlot]

/-- Each slot of the batch has the key of its request. -/
theorem keyOfSlot_fill {i n j : ℕ} {t : Thread} (room : i + n ≤ t.keyOfSlot.length) (inside : j < n) :
    (fill w pick i n t).1.keyOfSlot[i + j]? = ((fill w pick i n t).2.map Ask.keyIndex)[j]? := by
  induction n generalizing i j t with
  | zero => exact absurd inside (Nat.not_lt_zero _)
  | succ n ih =>
    rw [fill_succ, List.map_cons]
    cases j with
    | zero =>
      refine (keyOfSlot_fill_before n (Nat.lt_succ_self i) _).trans ?_
      rw [List.getElem?_set_self (by rw [nextKey_keyOfSlot]; omega)]
      rfl
    | succ j =>
      rw [List.getElem?_cons_succ, show i + (j + 1) = i + 1 + j by omega]
      refine ih ?_ (Nat.lt_of_succ_lt_succ inside)
      rw [List.length_set, nextKey_keyOfSlot]
      omega

/-- The cursor's next positions. -/
def walk (w : Workload) : ℕ → UInt64 → List UInt64
  | 0, _ => []
  | n + 1, cursor => cursor :: walk w n (cursor + w.conns)

variable (stride : w.strideLoad = true)

include stride

/-- The refused keys go first, the last one of them foremost. -/
theorem fill_keys (i n : ℕ) (t : Thread) : (fill w pick i n t).2.map Ask.keyIndex =
    t.retry.take n ++ walk w (n - t.retry.length) t.setCursor := by
  induction n generalizing i t with
  | zero => simp [fill, walk]
  | succ n ih =>
    rw [fill_succ, List.map_cons]
    refine (congrArg _ (ih ..)).trans ?_
    simp only [nextKey, stride, if_true]
    cases t.retry with
    | nil => simp [walk]
    | cons key rest => simp

theorem fill_retry (i n : ℕ) (t : Thread) : (fill w pick i n t).1.retry = t.retry.drop n := by
  induction n generalizing i t with
  | zero => rfl
  | succ n ih =>
    rw [fill_succ]
    refine (ih ..).trans ?_
    simp only [nextKey, stride, if_true]
    cases t.retry with
    | nil => exact List.drop_nil
    | cons key rest => rfl

theorem fill_setCursor (i n : ℕ) (t : Thread) :
    (fill w pick i n t).1.setCursor = t.setCursor + .ofNat (n - t.retry.length) * w.conns := by
  induction n generalizing i t with
  | zero => simp [fill]
  | succ n ih =>
    rw [fill_succ]
    refine (ih ..).trans ?_
    simp only [nextKey, stride, if_true]
    cases t.retry with
    | nil =>
      simp only [List.length_nil, Nat.sub_zero, UInt64.ofNat_add, show UInt64.ofNat 1 = 1 from rfl]
      rw [UInt64.add_mul, UInt64.one_mul, UInt64.add_assoc, UInt64.add_comm w.conns]
    | cons key rest => simp

end Fill

/-! ## The cursor -/

section Cursor

variable {w : Workload} {t : Thread}

private theorem conns_pos (nonzero : w.conns ≠ 0) : 0 < w.conns.toNat :=
  Nat.pos_of_ne_zero fun zero => nonzero (UInt64.toNat_inj.mp zero)

private theorem residue_step {n k c : ℕ} (same : k % n = c % n) (above : c ≤ k) (other : k ≠ c) : c + n ≤ k := by
  have divides : n ∣ k - c := Nat.dvd_of_mod_eq_zero (Nat.sub_mod_eq_zero_of_mod_eq same)
  have least := Nat.le_of_dvd (by omega) divides
  omega

/-- A walk that wraps around in its last step at most visits its part of the residue class once. -/
theorem count_walk {m : ℕ} {cursor : UInt64} (nonzero : w.conns ≠ 0)
    (fits : cursor.toNat + m * w.conns.toNat < 2 ^ 64 + w.conns.toNat) (key : UInt64) :
    (walk w m cursor).count key =
      if key.toNat % w.conns.toNat = cursor.toNat % w.conns.toNat ∧ cursor.toNat ≤ key.toNat ∧
        key.toNat < cursor.toNat + m * w.conns.toNat then 1 else 0 := by
  have positive := conns_pos nonzero
  induction m generalizing cursor with
  | zero =>
    rw [walk, List.count_nil, if_neg]
    omega
  | succ m ih =>
    have rest : (walk w m (cursor + w.conns)).count key =
        if key.toNat % w.conns.toNat = cursor.toNat % w.conns.toNat ∧ cursor.toNat + w.conns.toNat ≤ key.toNat ∧
          key.toNat < cursor.toNat + (m + 1) * w.conns.toNat then 1 else 0 := by
      cases m with
      | zero =>
        rw [walk, List.count_nil, if_neg]
        omega
      | succ m =>
        have small : (cursor + w.conns).toNat = cursor.toNat + w.conns.toNat := by
          rw [UInt64.toNat_add]
          rw [Nat.add_mul, Nat.add_mul] at fits
          exact Nat.mod_eq_of_lt (by omega)
        rw [ih (by rw [small]; rw [Nat.add_mul] at fits; omega), small, Nat.add_mod_right,
          Nat.add_mul (m + 1), Nat.one_mul, Nat.add_assoc, Nat.add_comm w.conns.toNat]
    rw [walk, List.count_cons, rest]
    rcases eq_or_ne cursor key with rfl | other
    · rw [if_neg (by omega), if_pos (beq_self_eq_true _), if_pos ⟨rfl, le_rfl, by rw [Nat.add_mul]; omega⟩]
    · have apart : key.toNat ≠ cursor.toNat := fun same => other (UInt64.toNat_inj.mp same.symm)
      rw [if_neg (show ¬ (cursor == key) = true by simpa using other), Nat.add_zero]
      refine if_congr ⟨fun ⟨same, above, below⟩ => ⟨same, by omega, below⟩, fun ⟨same, above, below⟩ => ?_⟩ rfl rfl
      exact ⟨same, residue_step same above apart, below⟩

/-- The count of what remains wraps around. -/
def Stuck (w : Workload) (t : Thread) : Prop :=
  t.setCursor.toNat < w.keys.toNat ∧ 2 ^ 64 + t.setCursor.toNat + 1 ≤ w.keys.toNat + w.conns.toNat

theorem toNat_remaining (nonzero : w.conns ≠ 0) (more : t.setCursor.toNat < w.keys.toNat) :
    (remaining w t).toNat =
      (w.keys.toNat - t.setCursor.toNat + w.conns.toNat - 1) % 2 ^ 64 / w.conns.toNat := by
  have positive := conns_pos nonzero
  have below := w.keys.toNat_lt
  rw [remaining, if_neg (by rw [UInt64.le_iff_toNat_le]; omega), UInt64.toNat_div, UInt64.toNat_sub, UInt64.toNat_add,
    UInt64.toNat_sub_of_le _ _ (by rw [UInt64.le_iff_toNat_le]; omega), show (1 : UInt64).toNat = 1 from rfl]
  congr 1
  omega

theorem Stuck.remaining_eq_zero (nonzero : w.conns ≠ 0) (stuck : Stuck w t) : (remaining w t).toNat = 0 := by
  have below := w.keys.toNat_lt
  have below' := w.conns.toNat_lt
  obtain ⟨more, wraps⟩ := stuck
  rw [toNat_remaining nonzero more]
  refine Nat.div_eq_of_lt ?_
  omega

theorem batch_le (stride : w.strideLoad = true) :
    (batch w t).toNat ≤ (remaining w t).toNat + t.retry.length ∧ (batch w t).toNat ≤ w.pipeline.toNat := by
  have size : (remaining w t + .ofNat t.retry.length).toNat ≤ (remaining w t).toNat + t.retry.length := by
    rw [UInt64.toNat_add, UInt64.toNat_ofNat']
    exact (Nat.mod_le _ _).trans (Nat.add_le_add_left (Nat.mod_le _ _) _)
  rw [batch, if_pos stride]
  show (if w.pipeline ≤ _ then w.pipeline else _).toNat ≤ _ ∧ (if w.pipeline ≤ _ then w.pipeline else _).toNat ≤ _
  split
  · next least => exact ⟨(UInt64.le_iff_toNat_le.mp least).trans size, le_rfl⟩
  · next least =>
    rw [UInt64.le_iff_toNat_le] at least
    exact ⟨size, by omega⟩

end Cursor

/-! ## The responses of a round -/

section Replies

variable {w : Workload} {pick : ℕ → UInt64} {n : ℕ} {replies : List Reply}

/-- Responses change the stack of refused keys and the counters only. -/
theorem receiveAll_frame (i : ℕ) (replies : List Reply) (t : Thread) :
    (receiveAll w n i replies t).setCursor = t.setCursor ∧ (receiveAll w n i replies t).keyOfSlot = t.keyOfSlot ∧
      (receiveAll w n i replies t).finish = t.finish ∧ (receiveAll w n i replies t).log = t.log := by
  induction replies generalizing i t with
  | nil => exact ⟨rfl, rfl, rfl, rfl⟩
  | cons reply rest ih =>
    have first : (receive w n i t reply).setCursor = t.setCursor ∧ (receive w n i t reply).keyOfSlot = t.keyOfSlot ∧
        (receive w n i t reply).finish = t.finish ∧ (receive w n i t reply).log = t.log := by
      unfold receive
      dsimp only
      split <;> exact ⟨rfl, rfl, rfl, rfl⟩
    obtain ⟨cursor, slots, finish, log⟩ := ih (i + 1) (receive w n i t reply)
    exact ⟨cursor.trans first.1, slots.trans first.2.1, finish.trans first.2.2.1, log.trans first.2.2.2⟩

theorem receiveAll_retry (stride : w.strideLoad = true) (inside : ∀ reply ∈ replies, reply.opaqueId.toNat < n)
    (i : ℕ) (t : Thread) :
    (receiveAll w n i replies t).retry =
      ((replies.filter fun reply => reply.status = kStatusTmpFail).map
        fun reply => t.keyOfSlot.getD reply.opaqueId.toNat 0).reverse ++ t.retry := by
  induction replies generalizing i t with
  | nil => rfl
  | cons reply rest ih =>
    obtain ⟨head, tail⟩ := List.forall_mem_cons.mp inside
    rw [receiveAll, ih tail]
    simp only [receive, stride, head, if_true, true_and]
    rcases Decidable.em (reply.status = kStatusTmpFail) with refused | other
    · rw [if_pos refused, List.filter_cons_of_pos (by simpa using refused), List.map_cons, List.reverse_cons,
        List.append_assoc, List.singleton_append]
    · rw [if_neg other, List.filter_cons_of_neg (by simpa using other)]

/-- One response for each opaque, as many as there were requests: there are no two with the same opaque. -/
theorem ids_perm (size : replies.length = n)
    (each : (replies.map Reply.opaqueId).Perm ((List.range' 0 n).map UInt32.ofNat).dedup) :
    (replies.map fun reply => reply.opaqueId.toNat).Perm (List.range n) := by
  have distinct : (replies.map fun reply => reply.opaqueId.toNat).Nodup := by
    have ids := (each.nodup_iff.mpr (List.nodup_dedup _)).map (fun _ _ => UInt32.toNat_inj.mp)
    rwa [List.map_map] at ids
  have inside : (replies.map fun reply => reply.opaqueId.toNat) ⊆ List.range n := by
    intro slot named
    obtain ⟨reply, member, rfl⟩ := List.mem_map.mp named
    have sent := List.mem_dedup.mp (each.subset (List.mem_map_of_mem member))
    obtain ⟨j, position, same⟩ := List.mem_map.mp sent
    rw [← List.range_eq_range', List.mem_range] at position
    rw [List.mem_range, ← same, UInt32.toNat_ofNat']
    exact (Nat.mod_le _ _).trans_lt position
  refine (distinct.subperm inside).perm_of_length_le ?_
  rw [List.length_range, List.length_map, size]

theorem filter_eq_singleton {asks : List Ask} {ask : Ask} (distinct : (asks.map Ask.opaqueId).Nodup)
    (member : ask ∈ asks) : (asks.filter fun other => other.opaqueId = ask.opaqueId) = [ask] := by
  induction asks with
  | nil => cases member
  | cons first rest ih =>
    obtain ⟨fresh, distinct⟩ := List.nodup_cons.mp distinct
    rcases List.mem_cons.mp member with rfl | later
    · rw [List.filter_cons_of_pos (by simp), List.filter_eq_nil_iff.mpr]
      intro other inRest same
      exact fresh (of_decide_eq_true same ▸ List.mem_map_of_mem inRest)
    · rw [List.filter_cons_of_neg, ih distinct later]
      intro same
      exact fresh (of_decide_eq_true same ▸ List.mem_map_of_mem later)

/-- The key a response is about. -/
def keyAt (asks : List Ask) (reply : Reply) : UInt64 := (asks.map Ask.keyIndex).getD reply.opaqueId.toNat 0

theorem keyAt_perm {asks : List Ask} (slots : (replies.map fun reply => reply.opaqueId.toNat).Perm (List.range n))
    (size : asks.length = n) : (replies.map (keyAt asks)).Perm (asks.map Ask.keyIndex) := by
  have perm := slots.map fun slot => (asks.map Ask.keyIndex).getD slot 0
  rw [List.map_map] at perm
  refine perm.trans (.of_eq ?_)
  refine List.ext_getElem (by rw [List.length_map, List.length_range, List.length_map, size]) ?_
  intro i left right
  rw [List.getElem_map, List.getElem_range, List.getD_eq_getElem?_getD, List.getElem?_eq_getElem right,
    Option.getD_some]

/-- Where the opaques are the slots, a response answers the request in its slot. -/
theorem answers_eq {asks : List Ask} (ids : asks.map Ask.opaqueId = (List.range' 0 n).map UInt32.ofNat)
    (slots : (replies.map fun reply => reply.opaqueId.toNat).Perm (List.range n)) :
    answers asks replies = replies.map fun reply => .answered (keyAt asks reply) reply.status := by
  have size : asks.length = n := by
    rw [← List.length_map Ask.opaqueId, ids, List.length_map, List.length_range']
  have small : ∀ slot < n, slot < 2 ^ 32 := by
    intro slot inside
    obtain ⟨reply, _, rfl⟩ := List.mem_map.mp (slots.symm.subset (List.mem_range.mpr inside))
    exact reply.opaqueId.toNat_lt
  have distinct : (asks.map Ask.opaqueId).Nodup := by
    rw [ids, ← List.range_eq_range']
    refine List.nodup_range.map_on fun a inside b inside' same => ?_
    have words := congrArg UInt32.toNat same
    rwa [UInt32.toNat_ofNat_of_lt' (small a (List.mem_range.mp inside)),
      UInt32.toNat_ofNat_of_lt' (small b (List.mem_range.mp inside'))] at words
  rw [answers, List.map_eq_flatMap]
  refine List.flatMap_congr fun reply member => ?_
  have inside := List.mem_range.mp (slots.subset (List.mem_map_of_mem member))
  have here : reply.opaqueId.toNat < asks.length := by rw [size]; exact inside
  have named : asks[reply.opaqueId.toNat].opaqueId = reply.opaqueId := by
    have entry := congrArg (fun l => l[reply.opaqueId.toNat]?) ids
    simpa [List.getElem?_range', inside, here] using entry
  have alone := filter_eq_singleton distinct (List.getElem_mem here)
  rw [named] at alone
  rw [alone, List.map_singleton, keyAt, List.getD_eq_getElem?_getD, List.getElem?_map, List.getElem?_eq_getElem here]
  rfl

end Replies

/-! ## What a round does -/

section Round

variable {w : Workload} {t next : Thread} {e : Event}

/-- A round of `n` requests in a load, with the keys in the order of their responses and the statuses of these. -/
structure Exchanged (w : Workload) (t next : Thread) (n : ℕ) (outcome : List (UInt64 × UInt16)) : Prop where
  size : n ≤ (remaining w t).toNat + t.retry.length
  setCursor : next.setCursor = t.setCursor + .ofNat (n - t.retry.length) * w.conns
  each : (outcome.map Prod.fst).Perm (t.retry.take n ++ walk w (n - t.retry.length) t.setCursor)
  statuses : ∀ o ∈ outcome, o.2 = 0 ∨ o.2 = kStatusTmpFail
  retry : next.retry = ((outcome.filter fun o => o.2 = kStatusTmpFail).map Prod.fst).reverse ++ t.retry.drop n
  log : next.log = t.log ++ (t.retry.take n ++ walk w (n - t.retry.length) t.setCursor).map Entry.sent ++
    outcome.map fun o => .answered o.1 o.2
  slots : next.keyOfSlot.length = t.keyOfSlot.length
  finish : next.finish = t.finish

theorem exchanged (stride : w.strideLoad = true) (slots : t.keyOfSlot.length = w.pipeline.toNat) {pick : ℕ → UInt64}
    {replies : List Reply} (served : Served w t (.round pick (.all replies)))
    (size : replies.length = (batch w t).toNat) :
    ∃ n outcome, Exchanged w t (exchange w pick (.all replies) t) n outcome := by
  obtain ⟨fits, room⟩ := batch_le (t := t) stride
  obtain ⟨each, statuses⟩ := served
  rw [exchange]
  generalize (batch w t).toNat = n at *
  rw [fill_ids] at each
  have perm := ids_perm size each
  have inside : ∀ reply ∈ replies, reply.opaqueId.toNat < n := fun reply member =>
    List.mem_range.mp (perm.subset (List.mem_map_of_mem member))
  have ids : (fill w pick 0 n t).2.map Ask.opaqueId = _ := fill_ids 0 n t
  have keys : (fill w pick 0 n t).2.map Ask.keyIndex = _ := fill_keys stride 0 n t
  have asked : (fill w pick 0 n t).2.length = n := length_fill 0 n t
  have slot : ∀ reply ∈ replies,
      (fill w pick 0 n t).1.keyOfSlot.getD reply.opaqueId.toNat 0 = keyAt (fill w pick 0 n t).2 reply := by
    intro reply member
    have same : (fill w pick 0 n t).1.keyOfSlot[0 + reply.opaqueId.toNat]? = _ :=
      keyOfSlot_fill (by rw [slots, Nat.zero_add]; exact room) (inside reply member)
    rw [Nat.zero_add] at same
    rw [keyAt, List.getD_eq_getElem?_getD, List.getD_eq_getElem?_getD, same]
  obtain ⟨cursor, slotsKept, finish, log⟩ := receiveAll_frame (w := w) (n := n) 0 replies
    { (fill w pick 0 n t).1 with
      log := (fill w pick 0 n t).1.log ++ ((fill w pick 0 n t).2.map fun ask => .sent ask.keyIndex) ++
        answers (fill w pick 0 n t).2 replies }
  refine ⟨n, replies.map fun reply => (keyAt (fill w pick 0 n t).2 reply, reply.status), fits, ?_, ?_, ?_, ?_, ?_, ?_,
    finish.trans (fill_frame ..).1⟩
  · exact cursor.trans (fill_setCursor stride ..)
  · rw [List.map_map, ← keys]
    exact keyAt_perm perm asked
  · simpa using statuses
  · refine (receiveAll_retry stride inside 0 _).trans ?_
    rw [List.filter_map, List.map_map, ← fill_retry stride 0 n t]
    congr 2
    exact List.map_congr_left fun reply member => slot reply (List.mem_of_mem_filter member)
  · refine log.trans ?_
    rw [(fill_frame ..).2, answers_eq ids perm, ← keys, List.map_map, List.map_map]
    rfl
  · exact (congrArg List.length slotsKept).trans (length_keyOfSlot_fill ..)

/-- A thread that has ended stays as it is. -/
theorem finish_eq_none_of_step (run : restrict (Served w) (step w) t e = some next) : t.finish = none := by
  have run := (restrict_eq_some.mp run).2
  unfold step at run
  split at run
  · cases run
  · next running => exact not_not.mp running

/-- What a step of a load does. -/
theorem step_cases (stride : w.strideLoad = true) (slots : t.keyOfSlot.length = w.pipeline.toNat)
    (run : restrict (Served w) (step w) t e = some next) :
    (∃ how, next.finish = some how ∧ how ≠ .outOfKeys) ∨
      Exhausted w t ∧ next = { t with finish := some .outOfKeys } ∨
      ∃ n outcome, Exchanged w t next n outcome := by
  have running := finish_eq_none_of_step run
  obtain ⟨served, run⟩ := restrict_eq_some.mp run
  unfold step at run
  rw [if_neg (not_not.mpr running)] at run
  cases e with
  | stop =>
    obtain rfl := Option.some.inj run
    exact .inl ⟨.stopped, rfl, by decide⟩
  | round pick reading =>
    dsimp only at run
    split at run
    · next exhausted =>
      obtain rfl := Option.some.inj run
      exact .inr (.inl ⟨exhausted, rfl⟩)
    · cases reading with
      | unsent =>
        obtain rfl := Option.some.inj run
        exact .inl ⟨.broken, rfl, by decide⟩
      | lost | foreign =>
        obtain ⟨_, same⟩ := Option.ite_none_right_eq_some.mp run
        obtain rfl := Option.some.inj same
        exact .inl ⟨.broken, rfl, by decide⟩
      | all replies =>
        obtain ⟨size, same⟩ := Option.ite_none_right_eq_some.mp run
        obtain rfl := Option.some.inj same
        exact .inr (.inr (exchanged stride slots served size))

/-- A round takes no key past the last. -/
theorem Exchanged.advance {n : ℕ} {outcome : List (UInt64 × UInt16)} (round : Exchanged w t next n outcome)
    (nonzero : w.conns ≠ 0) (free : ¬ Stuck w t) (below : t.setCursor.toNat < w.keys.toNat + w.conns.toNat) :
    t.setCursor.toNat + (n - t.retry.length) * w.conns.toNat < w.keys.toNat + w.conns.toNat := by
  have most : n - t.retry.length ≤ (remaining w t).toNat := by have := round.size; omega
  rcases Nat.lt_or_ge t.setCursor.toNat w.keys.toNat with more | done
  · have exact : w.keys.toNat - t.setCursor.toNat + w.conns.toNat - 1 < 2 ^ 64 := by
      by_contra wraps
      exact free ⟨more, by omega⟩
    rw [toNat_remaining nonzero more, Nat.mod_eq_of_lt exact] at most
    have product := (Nat.mul_le_mul_right w.conns.toNat most).trans (Nat.div_mul_le_self _ _)
    omega
  · have none : (remaining w t).toNat = 0 := by
      rw [remaining, if_pos (UInt64.le_iff_toNat_le.mpr done)]
      rfl
    rw [none, Nat.le_zero] at most
    rw [most, Nat.zero_mul]
    exact below

theorem Exchanged.toNat_setCursor {n : ℕ} {outcome : List (UInt64 × UInt16)}
    (round : Exchanged w t next n outcome) :
    next.setCursor.toNat = (t.setCursor.toNat + (n - t.retry.length) * w.conns.toNat) % 2 ^ 64 := by
  rw [round.setCursor, UInt64.toNat_add, UInt64.toNat_mul, UInt64.toNat_ofNat', Nat.mod_mul_mod, Nat.add_mod_mod]

theorem Exchanged.stuck {n : ℕ} {outcome : List (UInt64 × UInt16)} (round : Exchanged w t next n outcome)
    (nonzero : w.conns ≠ 0) (stuck : Stuck w t) : Stuck w next := by
  have size := round.size
  rw [stuck.remaining_eq_zero nonzero, Nat.zero_add] at size
  have same := round.setCursor
  rw [Nat.sub_eq_zero_of_le size, show UInt64.ofNat 0 = 0 from rfl, UInt64.zero_mul, UInt64.add_zero] at same
  unfold Stuck
  rw [same]
  exact stuck

end Round

/-! ## Each key once -/

section Once

variable {w : Workload} {t next : Thread} {i : ℕ} {e : Event}

/-- A connection that has sent the keys of its share below the cursor: of each of these there is one success or it is
still to be sent again. -/
structure Live (w : Workload) (i : ℕ) (t : Thread) : Prop where
  residue : t.setCursor.toNat % w.conns.toNat = i
  below : t.setCursor.toNat < w.keys.toNat + w.conns.toNat
  account : ∀ key, t.log.count (.answered key 0) + t.retry.count key =
    if key.toNat % w.conns.toNat = i ∧ key.toNat < t.setCursor.toNat then 1 else 0
  sent : ∀ key, t.log.count (.sent key) =
    t.log.count (.answered key 0) + t.log.count (.answered key kStatusTmpFail)
  inside : ∀ key, Entry.sent key ∈ t.log → key.toNat % w.conns.toNat = i ∧ key.toNat < t.setCursor.toNat
  resent : ∀ {before after key status}, t.log = before ++ Entry.answered key status :: after →
    status = 0 ∨ status = kStatusTmpFail ∧ (Entry.sent key ∈ after ∨ key ∈ t.retry)

theorem live_start (index : i < w.conns.toNat) : Live w i (start w i) := by
  have word : (UInt64.ofNat i).toNat = i := UInt64.toNat_ofNat_of_lt' (index.trans w.conns.toNat_lt)
  have cursor : (start w i).setCursor.toNat = i := word
  refine ⟨?_, ?_, ?_, fun _ => rfl, fun _ sent => (List.not_mem_nil sent).elim, fun same => ?_⟩
  · rw [cursor, Nat.mod_eq_of_lt index]
  · omega
  · intro key
    rw [cursor, if_neg]
    · rfl
    · rintro ⟨same, below⟩
      exact absurd (Nat.mod_le key.toNat w.conns.toNat) (by omega)
  · exact absurd same (by simp [start])

theorem count_outcome {outcome : List (UInt64 × UInt16)} (key : UInt64)
    (statuses : ∀ o ∈ outcome, o.2 = 0 ∨ o.2 = kStatusTmpFail) :
    (outcome.map Prod.fst).count key = outcome.count (key, 0) + outcome.count (key, kStatusTmpFail) ∧
      ((outcome.filter fun o => o.2 = kStatusTmpFail).map Prod.fst).count key =
        outcome.count (key, kStatusTmpFail) := by
  induction outcome with
  | nil => exact ⟨rfl, rfl⟩
  | cons o rest ih =>
    obtain ⟨head, tail⟩ := List.forall_mem_cons.mp statuses
    obtain ⟨all, refused⟩ := ih tail
    obtain ⟨other, status⟩ := o
    have apart : kStatusTmpFail ≠ 0 := by decide
    rcases head with rfl | rfl
    · simp only [List.filter_cons, apart.symm, decide_false, Bool.false_eq_true, if_false, List.map_cons,
        List.count_cons, all, refused, beq_iff_eq, Prod.mk.injEq, and_true, and_false, Nat.add_zero]
      omega
    · simp only [List.filter_cons, decide_true, if_true, List.map_cons, List.count_cons, all, refused, beq_iff_eq,
        Prod.mk.injEq, apart, and_true, and_false, if_false, Nat.add_zero]
      omega

/-- An entry of two logs in a row is in the first or in the second. -/
private theorem append_eq_cons {α : Type*} {first second before after : List α} {x : α}
    (same : first ++ second = before ++ x :: after) :
    (∃ rest, first = before ++ x :: rest ∧ after = rest ++ second) ∨
      ∃ rest, before = first ++ rest ∧ second = rest ++ x :: after := by
  rcases List.append_eq_append_iff.mp same with ⟨rest, left, right⟩ | ⟨rest, left, right⟩
  · exact .inr ⟨rest, left, right⟩
  · cases rest with
    | nil => exact .inr ⟨[], by rw [left, List.append_nil, List.append_nil], right.symm⟩
    | cons y rest =>
      obtain ⟨rfl, tail⟩ := List.cons.inj right
      exact .inl ⟨rest, left, tail⟩

private theorem not_answered_mem_sent {keys : List UInt64} {key : UInt64} {status : UInt16} :
    Entry.answered key status ∉ keys.map Entry.sent := by
  intro member
  obtain ⟨_, _, same⟩ := List.mem_map.mp member
  cases same

namespace Exchanged

variable {n : ℕ} {outcome : List (UInt64 × UInt16)} (round : Exchanged w t next n outcome)

include round

theorem count_answered (key : UInt64) (status : UInt16) : next.log.count (.answered key status) =
    t.log.count (.answered key status) + outcome.count (key, status) := by
  have injective : Function.Injective fun o : UInt64 × UInt16 => Entry.answered o.1 o.2 := by
    rintro ⟨_, _⟩ ⟨_, _⟩ same
    cases same
    rfl
  have requests : ((t.retry.take n ++ walk w (n - t.retry.length) t.setCursor).map Entry.sent).count
      (.answered key status) = 0 := List.count_eq_zero.mpr not_answered_mem_sent
  rw [round.log, List.count_append, List.count_append, requests, Nat.add_zero]
  exact congrArg _ (List.count_map_of_injective _ _ injective (key, status))

theorem count_sent (key : UInt64) : next.log.count (.sent key) =
    t.log.count (.sent key) + (t.retry.take n ++ walk w (n - t.retry.length) t.setCursor).count key := by
  have responses : (outcome.map fun o => Entry.answered o.1 o.2).count (.sent key) = 0 :=
    List.count_eq_zero.mpr (by simp)
  rw [round.log, List.count_append, List.count_append, responses, Nat.add_zero,
    List.count_map_of_injective _ _ (fun _ _ => Entry.sent.inj)]

theorem count_keys (key : UInt64) : (t.retry.take n ++ walk w (n - t.retry.length) t.setCursor).count key =
    outcome.count (key, 0) + outcome.count (key, kStatusTmpFail) := by
  rw [← round.each.count_eq]
  exact (count_outcome key round.statuses).1

theorem count_retry (key : UInt64) :
    next.retry.count key = outcome.count (key, kStatusTmpFail) + (t.retry.drop n).count key := by
  rw [round.retry, List.count_append, List.count_reverse, (count_outcome key round.statuses).2]

end Exchanged

theorem Live.exchanged {n : ℕ} {outcome : List (UInt64 × UInt16)} (live : Live w i t) (nonzero : w.conns ≠ 0)
    (round : Exchanged w t next n outcome)
    (most : t.setCursor.toNat + (n - t.retry.length) * w.conns.toNat < w.keys.toNat + w.conns.toNat)
    (fits : t.setCursor.toNat + (n - t.retry.length) * w.conns.toNat < 2 ^ 64) : Live w i next := by
  have cursor : next.setCursor.toNat = t.setCursor.toNat + (n - t.retry.length) * w.conns.toNat := by
    rw [round.toNat_setCursor, Nat.mod_eq_of_lt fits]
  have walked : ∀ key, (walk w (n - t.retry.length) t.setCursor).count key =
      if key.toNat % w.conns.toNat = i ∧ t.setCursor.toNat ≤ key.toNat ∧ key.toNat < next.setCursor.toNat
        then 1 else 0 := by
    intro key
    rw [count_walk nonzero (by omega), live.residue, cursor]
  have shares : ∀ key, (if key.toNat % w.conns.toNat = i ∧ key.toNat < t.setCursor.toNat then 1 else 0) +
      (walk w (n - t.retry.length) t.setCursor).count key =
        if key.toNat % w.conns.toNat = i ∧ key.toNat < next.setCursor.toNat then 1 else 0 := by
    intro key
    rw [walked]
    split_ifs <;> omega
  refine ⟨?_, by omega, fun key => ?_, fun key => ?_, fun key sent => ?_, fun same => ?_⟩
  · rw [cursor, Nat.add_mul_mod_self_right, live.residue]
  · have old := live.account key
    have keys := round.count_keys key
    have taken : (t.retry.take n).count key + (t.retry.drop n).count key = t.retry.count key := by
      rw [← List.count_append, List.take_append_drop]
    rw [List.count_append] at keys
    rw [← shares, ← old, round.count_answered, round.count_retry]
    omega
  · rw [round.count_sent, round.count_answered, round.count_answered, live.sent, round.count_keys]
    omega
  · have known : t.log.count (.sent key) ≠ 0 ∨ t.retry.count key ≠ 0 ∨
        (walk w (n - t.retry.length) t.setCursor).count key ≠ 0 := by
      have positive := List.count_pos_iff.mpr sent
      have taken : (t.retry.take n).count key ≤ t.retry.count key := (List.take_sublist n t.retry).count_le key
      rw [round.count_sent, List.count_append] at positive
      omega
    rcases known with before | refused | fresh
    · have old := live.inside key (List.count_pos_iff.mp (Nat.pos_of_ne_zero before))
      omega
    · have old := live.account key
      split_ifs at old <;> omega
    · rw [walked] at fresh
      split_ifs at fresh <;> omega
  · rw [round.log, List.append_assoc] at same
    rcases append_eq_cons same with ⟨rest, old, rfl⟩ | ⟨rest, _, new⟩
    · refine (live.resent old).imp_right fun ⟨refused, later⟩ => ⟨refused, ?_⟩
      rcases later with sent | waiting
      · exact .inl (List.mem_append_left _ sent)
      · rw [← List.take_append_drop n t.retry] at waiting
        rcases List.mem_append.mp waiting with taken | left
        · refine .inl (List.mem_append_right _ (List.mem_append_left _ (List.mem_map_of_mem ?_)))
          exact List.mem_append_left _ taken
        · rw [round.retry]
          exact .inr (List.mem_append_right _ left)
    · rcases append_eq_cons new with ⟨_, impossible, _⟩ | ⟨_, _, answered⟩
      · exact (not_answered_mem_sent (impossible ▸ List.mem_append_right _ List.mem_cons_self)).elim
      · obtain ⟨o, member, same⟩ := List.mem_map.mp (answered ▸ List.mem_append_right _ List.mem_cons_self)
        cases same
        refine (round.statuses o member).imp_right fun refused => ⟨refused, .inr ?_⟩
        rw [round.retry, List.mem_append, List.mem_reverse]
        exact .inl (List.mem_map_of_mem (List.mem_filter.mpr ⟨member, decide_eq_true refused⟩))

/-- A load as long as it may still run out of keys. -/
def Sound (w : Workload) (i : ℕ) (t : Thread) : Prop :=
  (∃ how, t.finish = some how ∧ how ≠ .outOfKeys) ∨
    t.keyOfSlot.length = w.pipeline.toNat ∧
      (t.finish = none ∧ Stuck w t ∨ Live w i t ∧ (t.finish = none ∨ Exhausted w t))

theorem sound_step (stride : w.strideLoad = true) (nonzero : w.conns ≠ 0) (sound : Sound w i t)
    (run : restrict (Served w) (step w) t e = some next) : Sound w i next := by
  have running := finish_eq_none_of_step run
  rcases sound with ⟨how, ended, _⟩ | ⟨slots, state⟩
  · exact absurd (running.symm.trans ended) (by simp)
  · rcases step_cases stride slots run with failed | ⟨exhausted, rfl⟩ | ⟨n, outcome, round⟩
    · exact .inl failed
    · rcases state with ⟨_, stuck⟩ | ⟨live, _⟩
      · exact absurd stuck.1 (Nat.not_lt.mpr (UInt64.le_iff_toNat_le.mp exhausted.2.1))
      · exact .inr ⟨slots, .inr ⟨⟨live.residue, live.below, live.account, live.sent, live.inside, live.resent⟩,
          .inr exhausted⟩⟩
    · have still : next.finish = none := round.finish.trans running
      refine .inr ⟨round.slots.trans slots, ?_⟩
      rcases Classical.em (Stuck w t) with stuck | free
      · exact .inl ⟨still, round.stuck nonzero stuck⟩
      · obtain ⟨live, _⟩ := state.resolve_left fun ⟨_, stuck⟩ => free stuck
        have most := round.advance nonzero free live.below
        rcases Nat.lt_or_ge (t.setCursor.toNat + (n - t.retry.length) * w.conns.toNat) (2 ^ 64) with fits | wraps
        · exact .inr ⟨live.exchanged nonzero round most fits, .inl still⟩
        · refine .inl ⟨still, ?_⟩
          have below := w.conns.toNat_lt
          have below' := w.keys.toNat_lt
          have cursor := round.toNat_setCursor
          rw [Nat.mod_eq_sub_mod wraps, Nat.mod_eq_of_lt (by omega)] at cursor
          exact ⟨by omega, by omega⟩

/-- The thread of connection `i` has run out of keys. -/
theorem live_of_outOfKeys {tape : List Event} (stride : w.strideLoad = true) (nonzero : w.conns ≠ 0)
    (index : i < w.conns.toNat) (run : exec (restrict (Served w) (step w)) (start w i) tape = some t)
    (ended : t.finish = some .outOfKeys) : Live w i t ∧ Exhausted w t := by
  have begun : Sound w i (start w i) := .inr ⟨List.length_replicate .., .inr ⟨live_start index, .inl rfl⟩⟩
  have sound : Sound w i t := Reach.invariant begun (sound_step stride nonzero) ⟨tape, run⟩
  rcases sound with ⟨how, other, unlike⟩ | ⟨_, ⟨running, _⟩ | ⟨live, running | exhausted⟩⟩
  · exact absurd (Option.some.inj (other.symm.trans ended)) unlike
  · exact absurd (running.symm.trans ended) (by simp)
  · exact absurd (running.symm.trans ended) (by simp)
  · exact ⟨live, exhausted⟩

/-- What goes over a connection is about its share. -/
theorem Live.home (live : Live w i t) {entry : Entry} (member : entry ∈ t.log) :
    entry.key.toNat % w.conns.toNat = i := by
  cases entry with
  | sent key => exact (live.inside key member).1
  | answered key status =>
    obtain ⟨before, after, split⟩ := List.mem_iff_append.mp member
    have positive := List.count_pos_iff.mpr member
    have sent := live.sent key
    refine (live.inside key (List.count_pos_iff.mp ?_)).1
    rcases live.resent split with rfl | ⟨rfl, _⟩ <;> omega

/-- So an entry is to be found in the log of one connection only. -/
theorem count_logs {threads : ℕ → Thread} (nonzero : w.conns ≠ 0)
    (live : ∀ i < w.conns.toNat, Live w i (threads i)) (entry : Entry) :
    ((List.range w.conns.toNat).flatMap fun i => (threads i).log).count entry =
      (threads (entry.key.toNat % w.conns.toNat)).log.count entry := by
  have positive := conns_pos nonzero
  have own : ∀ i, ∀ x ∈ (if i < w.conns.toNat then (threads i).log else []), x.key.toNat % w.conns.toNat = i := by
    intro i x member
    split at member
    · next index => exact (live i index).home member
    · cases member
  have counted := count_flatMap_home (fun x : Entry => x.key.toNat % w.conns.toNat) _ own
    (List.nodup_range (n := w.conns.toNat)) entry
  rw [if_pos (List.mem_range.mpr (Nat.mod_lt _ positive)), if_pos (Nat.mod_lt _ positive)] at counted
  rw [← counted]
  refine congrArg (List.count entry) (List.flatMap_congr fun i index => ?_)
  rw [if_pos (List.mem_range.mp index)]

/-- The load wrote each key once: there is one success for it over all connections, each other response for it is a
temporary failure after which it is sent again, and nothing else is sent. -/
structure WrittenOnce (w : Workload) (threads : ℕ → Thread) : Prop where
  success : ∀ key < w.keys, ((List.range w.conns.toNat).flatMap fun i => (threads i).log).count (.answered key 0) = 1
  refused : ∀ i < w.conns.toNat, ∀ before after key status,
    (threads i).log = before ++ Entry.answered key status :: after → status ≠ 0 →
      status = kStatusTmpFail ∧ Entry.sent key ∈ after
  sent : ∀ key < w.keys, ((List.range w.conns.toNat).flatMap fun i => (threads i).log).count (.sent key) =
    ((List.range w.conns.toNat).flatMap fun i => (threads i).log).count (.answered key kStatusTmpFail) + 1
  inside : ∀ i < w.conns.toNat, ∀ key, Entry.sent key ∈ (threads i).log → key < w.keys

theorem load_writes_each_key_once {w : Workload} (stride : w.strideLoad = true) (accepted : w.Accepted)
    {tapes : ℕ → List Event} {threads : ℕ → Thread}
    (runs : ∀ i < w.conns.toNat,
      exec (restrict (Served w) (step w)) (start w i) (tapes i) = some (threads i))
    (exhausted : ∀ i < w.conns.toNat, (threads i).finish = some .outOfKeys) : WrittenOnce w threads := by
  have nonzero := accepted.1
  have positive := conns_pos nonzero
  have both := fun i index => live_of_outOfKeys stride nonzero index (runs i index) (exhausted i index)
  have live := fun i index => (both i index).1
  have once : ∀ key < w.keys, (threads (key.toNat % w.conns.toNat)).log.count (.answered key 0) = 1 := by
    intro key inside
    obtain ⟨live, _, passed, written⟩ := both _ (Nat.mod_lt key.toNat positive)
    have account := live.account key
    rw [UInt64.lt_iff_toNat_lt] at inside
    rw [UInt64.le_iff_toNat_le] at passed
    rwa [written, List.count_nil, Nat.add_zero, if_pos ⟨rfl, by omega⟩] at account
  constructor
  case success =>
    intro key inside
    rw [count_logs nonzero live]
    exact once key inside
  case refused =>
    intro i index before after key status split failed
    obtain ⟨live, _, _, written⟩ := both i index
    obtain ⟨refused, sent | waiting⟩ := (live.resent split).resolve_left failed
    · exact ⟨refused, sent⟩
    · exact absurd waiting (by simp [written])
  case sent =>
    intro key inside
    have sent := (live _ (Nat.mod_lt key.toNat positive)).sent key
    rw [once key inside] at sent
    rw [count_logs nonzero live, count_logs nonzero live]
    exact sent.trans (Nat.add_comm ..)
  case inside =>
    intro i index key sent
    have share := (live i index).inside key sent
    have below := (live i index).below
    have residue := (live i index).residue
    have next := residue_step (residue.trans share.1.symm) share.2.le (Nat.ne_of_gt share.2)
    rw [UInt64.lt_iff_toNat_lt]
    omega

/-- Three keys over two connections. -/
def smallLoad : Workload where
  doSet := true
  conns := 2
  pipeline := 2
  keys := 3

/-- The first connection has its second key refused, and its responses swapped. -/
def smallTape : ℕ → List Event
  | 0 => [.round (fun _ => 0) (.all [⟨1, kStatusTmpFail⟩, ⟨0, 0⟩]), .round (fun _ => 0) (.all [⟨0, 0⟩]),
      .round (fun _ => 0) .unsent]
  | _ => [.round (fun _ => 0) (.all [⟨0, 0⟩]), .round (fun _ => 0) .unsent]

theorem load_writes_each_key_once_small : ∃ threads : ℕ → Thread,
    (threads 0).log = [.sent 0, .sent 2, .answered 2 kStatusTmpFail, .answered 0 0, .sent 2, .answered 2 0] ∧
      (threads 1).log = [.sent 1, .answered 1 0] ∧ WrittenOnce smallLoad threads := by
  have ran : ∀ i < smallLoad.conns.toNat, ((exec (restrict (Served smallLoad) (step smallLoad)) (start smallLoad i)
      (smallTape i)).map fun t => (t.finish, t.log)) = some (some .outOfKeys, if i = 0 then
        [.sent 0, .sent 2, .answered 2 kStatusTmpFail, .answered 0 0, .sent 2, .answered 2 0]
        else [.sent 1, .answered 1 0]) := by decide +kernel
  have : Nonempty Thread := ⟨start smallLoad 0⟩
  choose! threads runs seen using fun i index => Option.map_eq_some_iff.mp (ran i index)
  have ended := fun i index => (Prod.mk.inj (seen i index)).1
  have logs := fun i index => (Prod.mk.inj (seen i index)).2
  exact ⟨threads, logs 0 (by decide), logs 1 (by decide),
    load_writes_each_key_once rfl (by decide) runs ended⟩

end Once

end Batches

end FluxKV.Client
