import FluxKV.Engine.DocMeta
import FluxKV.ToMathlib.Grouping

/-! # Finished GETs on their way to a connection

A reader thread copies magma's answer into every request that waits for the key and gives each of them to its
`DispatchAccum`. The accumulator groups the requests by connection for a direct send or by loop for a posted one,
hands a group on when it is full, and hands on all that is left in `FlushAll`.
-/

namespace FluxKV.Engine.Reads

open Protocol Grouping

/-- The settings that the read paths look at. -/
structure Config where
  gDirectSend : Bool
  gDispatchBatch : ℕ
  gAsyncReads : Bool
  gCacheSeqnoIndex : Bool
deriving DecidableEq, Repr

/-- The error codes of magma's `Status`. -/
inductive Code where
  | internal
  | retryLater
  | other (code : ℕ)
deriving DecidableEq, Repr

/-- Magma's `Status`. `okDocNotFound` counts as OK. -/
inductive Status where
  | ok
  | okDocNotFound
  | error (code : Code) (message : String)
deriving DecidableEq, Repr

namespace Status

def isOK : Status → Bool
  | ok | okDocNotFound => true
  | error .. => false

def isOkDocNotFound : Status → Bool
  | okDocNotFound => true
  | _ => false

/-- The status of a GET whose key magma does not have: `sendGetResponse` needs one that is not OK. -/
def keyNotFound : Status := .error .internal "key-not-found"

end Status

/-- What magma passes to the callback of a `GetOperation`, or returns from `Get`. -/
structure Answer where
  status : Status
  metadata : Bytes
  value : Bytes
deriving DecidableEq, Repr

def Answer.hit (a : Answer) : Bool := a.status.isOK && !a.status.isOkDocNotFound

/-- A GET as the handler queued it. `id` stands for the address of the `Request`. -/
structure Get where
  id : ℕ
  conn : ℕ
  evb : ℕ
  vbucket : UInt16
  key : Bytes
deriving DecidableEq, Repr

/-- `struct Request`, for GETs. -/
structure GetRequest extends Get where
  resultStatus : Status
  resultSeqno : UInt64
  resultFlags : UInt32
  resultDatatype : UInt8
  responseBuf : Bytes
deriving DecidableEq, Repr

/-- A request as `reset` leaves it for its next use. -/
def Get.reset (g : Get) : GetRequest where
  toGet := g
  resultStatus := .ok
  resultSeqno := 0
  resultFlags := 0
  resultDatatype := 0
  responseBuf := []

/-- What a GET is told of magma's answer for its key. -/
def Get.told (g : Get) (a : Answer) : GetRequest :=
  match a.status with
  | .ok =>
    { toGet := g
      resultStatus := .ok
      resultSeqno := (DocMeta.decodeOrZero a.metadata).seqno
      resultFlags := (DocMeta.decodeOrZero a.metadata).flags
      resultDatatype := (DocMeta.decodeOrZero a.metadata).datatype
      responseBuf := a.value }
  | .okDocNotFound => { g.reset with resultStatus := .keyNotFound }
  | .error code message => { g.reset with resultStatus := .error code message }

/-- The result fields of one request, as `completeGets` and the single GET of `executeRead` set them. -/
def GetRequest.complete (req : GetRequest) (a : Answer) : GetRequest :=
  if a.hit then
    let dm := DocMeta.decodeOrZero a.metadata
    { req with
      resultStatus := a.status
      resultFlags := dm.flags
      resultSeqno := dm.seqno
      responseBuf := if 0 < a.value.length then a.value else req.responseBuf
      resultDatatype := dm.datatype }
  else { req with resultStatus := if a.status.isOkDocNotFound then .keyNotFound else a.status }

theorem complete_reset (g : Get) (a : Answer) : g.reset.complete a = g.told a := by
  obtain ⟨status, metadata, value⟩ := a
  cases status with
  | ok => cases value <;> rfl
  | okDocNotFound | error => rfl

/-- What leaves an accumulator. -/
inductive Send where
  /-- a closure on a loop that calls `r->conn->sendGetResponse(r)` for each request -/
  | post (evb : ℕ) (batch : List GetRequest)
  /-- a call of `conn->sendDirect` -/
  | direct (conn : ℕ) (batch : List GetRequest)
deriving DecidableEq, Repr

namespace Send

def batch : Send → List GetRequest
  | post _ batch | direct _ batch => batch

/-- The connection whose method gets each request. -/
def handed : Send → List (ℕ × GetRequest)
  | post _ batch => batch.map fun r => (r.conn, r)
  | direct conn batch => batch.map fun r => (conn, r)

/-- Every request is of the connection, or of the loop, that it goes to. -/
def Proper : Send → Prop
  | post evb batch => ∀ r ∈ batch, r.evb = evb
  | direct conn batch => ∀ r ∈ batch, r.conn = conn

theorem handed_map_snd (send : Send) : send.handed.map Prod.snd = send.batch := by
  cases send <;> simp [handed, batch, Function.comp_def]

theorem Proper.own {send : Send} (proper : send.Proper) : ∀ h ∈ send.handed, h.1 = h.2.conn := by
  intro h member
  cases send with
  | post evb batch =>
    obtain ⟨r, _, rfl⟩ := List.mem_map.mp member
    rfl
  | direct conn batch =>
    obtain ⟨r, inside, rfl⟩ := List.mem_map.mp member
    exact (proper r inside).symm

end Send

/-- `class DispatchAccum`. -/
structure DispatchAccum where
  direct : List (ℕ × List GetRequest) := []
  groups : List (ℕ × List GetRequest) := []
deriving DecidableEq, Repr

namespace DispatchAccum

def kDirectMax : ℕ := 64

def add (cfg : Config) (accum : DispatchAccum) (req : GetRequest) : DispatchAccum × List Send :=
  if cfg.gDirectSend then
    let direct := push req.conn req accum.direct
    let vec := slot req.conn direct
    if kDirectMax ≤ vec.length then ({ accum with direct := clear req.conn direct }, [.direct req.conn vec])
    else ({ accum with direct }, [])
  else if cfg.gDispatchBatch ≤ 1 then (accum, [.post req.evb [req]])
  else
    let groups := push req.evb req accum.groups
    let vec := slot req.evb groups
    if cfg.gDispatchBatch ≤ vec.length then ({ accum with groups := clear req.evb groups }, [.post req.evb vec])
    else ({ accum with groups }, [])

/-- The groups that have something to hand on. -/
def filled (groups : List (ℕ × List GetRequest)) : List (ℕ × List GetRequest) :=
  groups.filter fun g => !g.2.isEmpty

def flushAll (accum : DispatchAccum) : DispatchAccum × List Send :=
  -- the connections' keys stay for the next batch unless there are many of them
  ({ direct := if 256 < accum.direct.length then [] else accum.direct.map fun g => (g.1, [])
     groups := [] },
    (filled accum.direct).map (fun g => .direct g.1 g.2) ++ (filled accum.groups).map fun g => .post g.1 g.2)

/-- The requests that wait in the accumulator. -/
def held (accum : DispatchAccum) : List GetRequest := members accum.direct ++ members accum.groups

/-- Each group is of one connection, or of one loop. -/
structure Sorted (accum : DispatchAccum) : Prop where
  direct : Keyed (fun r => r.conn) accum.direct
  groups : Keyed (fun r => r.evb) accum.groups

/-- What a method does to the accumulator: the requests that come in and those that waited are, once each, among
those that wait now and those that were handed on, and each of the latter goes where it belongs. -/
structure Moves (before : DispatchAccum) (incoming : List GetRequest) (after : DispatchAccum × List Send) : Prop where
  conserved : (after.1.held ++ after.2.flatMap Send.batch).Perm (incoming ++ before.held)
  sorted : after.1.Sorted
  proper : ∀ send ∈ after.2, send.Proper

variable {accum : DispatchAccum} {incoming : List GetRequest}

theorem Moves.nil (sorted : accum.Sorted) : accum.Moves [] (accum, []) :=
  ⟨.of_eq (List.append_nil _), sorted, fun _ member => (List.not_mem_nil member).elim⟩

/-- One call after another. -/
theorem Moves.trans {more : List GetRequest} {first second : DispatchAccum × List Send}
    (before : accum.Moves incoming first) (after : first.1.Moves more second) :
    accum.Moves (incoming ++ more) (second.1, first.2 ++ second.2) where
  conserved := by
    have early := List.perm_iff_count.mp before.conserved
    have late := List.perm_iff_count.mp after.conserved
    refine List.perm_iff_count.mpr fun r => ?_
    have early := early r
    have late := late r
    simp only [List.flatMap_append, List.count_append] at early late ⊢
    omega
  sorted := after.sorted
  proper := List.forall_mem_append.mpr ⟨before.proper, after.proper⟩

/-- One of the two tables takes a request and hands on a group or nothing, the other stays as it is. -/
theorem perm_of_table {req : GetRequest} {sent kept before : List GetRequest}
    (moved : (sent ++ kept).Perm (req :: before)) (other : List GetRequest) :
    (kept ++ other ++ sent).Perm (req :: (before ++ other)) :=
  List.perm_append_comm.trans ((List.append_assoc sent kept other).symm ▸ moved.append_right other)

theorem add_moves (cfg : Config) (sorted : accum.Sorted) (req : GetRequest) :
    accum.Moves [req] (accum.add cfg req) := by
  have direct := sorted.direct.push req
  have groups := sorted.groups.push req
  have swap : ∀ kept, (members accum.direct ++ kept).Perm (kept ++ members accum.direct) :=
    fun _ => List.perm_append_comm
  dsimp only [add]
  split_ifs
  · refine ⟨?_, ⟨direct.clear _, sorted.groups⟩, List.forall_mem_singleton.mpr (direct.slot _)⟩
    rw [List.flatMap_singleton]
    exact perm_of_table (members_clear_push ..) _
  · refine ⟨?_, ⟨direct, sorted.groups⟩, fun _ member => (List.not_mem_nil member).elim⟩
    exact perm_of_table (members_push ..) _
  · refine ⟨?_, sorted, List.forall_mem_singleton.mpr (List.forall_mem_singleton.mpr rfl)⟩
    exact List.perm_append_comm
  · refine ⟨?_, ⟨sorted.direct, groups.clear _⟩, List.forall_mem_singleton.mpr (groups.slot _)⟩
    rw [List.flatMap_singleton]
    exact ((swap _).append_right _).trans ((perm_of_table (members_clear_push ..) _).trans ((swap _).symm.cons req))
  · refine ⟨?_, ⟨sorted.direct, groups⟩, fun _ member => (List.not_mem_nil member).elim⟩
    exact ((swap _).append_right _).trans ((perm_of_table (members_push ..) _).trans ((swap _).symm.cons req))

theorem held_flushAll (accum : DispatchAccum) : accum.flushAll.1.held = [] := by
  dsimp only [flushAll, held]
  split_ifs
  · rfl
  · rw [members_map_nil]
    rfl

theorem flatMap_filled (groups : List (ℕ × List GetRequest)) : (filled groups).flatMap Prod.snd = members groups := by
  induction groups with
  | nil => rfl
  | cons group rest ih =>
    obtain ⟨k, vec⟩ := group
    cases vec with
    | nil => exact ih
    | cons req vec => exact congrArg (req :: vec ++ ·) ih

theorem flushAll_moves (sorted : accum.Sorted) : accum.Moves [] accum.flushAll where
  conserved := by
    rw [held_flushAll]
    simp only [flushAll, List.nil_append, List.flatMap_append, List.flatMap_map]
    exact .of_eq (congrArg₂ _ (flatMap_filled _) (flatMap_filled _))
  sorted := by
    refine ⟨?_, fun _ member => (List.not_mem_nil member).elim⟩
    dsimp only [flushAll]
    split_ifs
    · exact fun _ member => (List.not_mem_nil member).elim
    · intro group member
      obtain ⟨_, _, rfl⟩ := List.mem_map.mp member
      exact fun _ inside => (List.not_mem_nil inside).elim
  proper := by
    refine List.forall_mem_append.mpr ⟨?_, ?_⟩
    · intro send member
      obtain ⟨group, inside, rfl⟩ := List.mem_map.mp member
      exact sorted.direct group (List.mem_of_mem_filter inside)
    · intro send member
      obtain ⟨group, inside, rfl⟩ := List.mem_map.mp member
      exact sorted.groups group (List.mem_of_mem_filter inside)

end DispatchAccum

/-- `completeGets`. -/
def completeGets (cfg : Config) (a : Answer) : List GetRequest → DispatchAccum → DispatchAccum × List Send
  | [], accum => (accum, [])
  | req :: rest, accum =>
    let added := accum.add cfg (req.complete a)
    let later := completeGets cfg a rest added.1
    (later.1, added.2 ++ later.2)

theorem completeGets_moves (cfg : Config) {accum : DispatchAccum} (sorted : accum.Sorted) (a : Answer)
    (reqs : List GetRequest) :
    accum.Moves (reqs.map fun req => req.complete a) (completeGets cfg a reqs accum) := by
  induction reqs generalizing accum with
  | nil => exact .nil sorted
  | cons req rest ih =>
    have added := DispatchAccum.add_moves cfg sorted (req.complete a)
    exact added.trans (ih added.sorted)

end FluxKV.Engine.Reads
