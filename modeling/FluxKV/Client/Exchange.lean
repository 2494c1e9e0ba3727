import FluxKV.Client.Requests
import FluxKV.Client.ResponseCounter
import FluxKV.Connection.Framing
import FluxKV.Connection.Send.Stream
import FluxKV.Protocol.Build

/-! # Client and server on one connection

The client's requests go out as one stream of bytes and the responses come back as another. Neither side sees the
chunks the other wrote: the network cuts the streams anew, the server pauses or moves to another loop in the middle of
a request, and its readers and its loop write responses side by side.
-/

namespace FluxKV.Client

open Protocol Machine

/-! ## Requests -/

namespace Options

variable {opts : Options} {value : Bytes} {asks : List Ask}

/-- Whatever the network and the server's loops do, where every request fits: as far as the stream has come, the server
has taken off the first requests the client asked for, in this order and each as it was asked for; and all of them, once
the whole stream has come and the connection is neither closed, paused nor moving. -/
theorem asked_requests_are_taken (accepted : opts.Accepted)
    (buffer : value.length = max opts.valsize.toNat opts.valMax.toNat)
    (short : ∀ ask ∈ asks, (keyFor opts ask.keyIndex).length ≤ 65535) (fits : ∀ ask ∈ asks, opts.Fits value ask)
    {sent : Bytes} (sends : opts.sendBuf value asks = some sent) {s : Connection.Session}
    (reached : Reach Connection.Session.step .start s) (received : s.received <+: sent) :
    List.Forall₂ (opts.Intact value) (asks.take s.taken.length) s.taken ∧
      (s.received = sent → s.phase = .idle → s.closing = false → s.readPaused = false → s.migrating = false →
        s.taken.length = asks.length) := by
  have framed : s.Framed := Reach.invariant .start (fun before taken => before.step taken) reached
  obtain rfl : (asks.map (opts.part value)).flatten = sent :=
    Option.some.inj ((foldlM_append accepted fits []).symm.trans sends)
  have cut := frames_parts accepted buffer short fits
  have first : s.taken <+: asks.map (opts.part value) := by
    obtain ⟨rest, stream⟩ := framed.stream.trans received
    have split := Framer.frames_flatten_append framed.areFrames rest
    rw [stream, cut] at split
    exact ⟨_, (congrArg Prod.fst split).symm⟩
  refine ⟨?_, fun whole idle opened unpaused still => ?_⟩
  · have each := List.forall₂_take s.taken.length (intact_parts accepted buffer short fits)
    rwa [← List.prefix_iff_eq_take.mp first] at each
  · have all := Framer.frames_flatten_append framed.areFrames s.readBuf.flatten
    rw [← framed.split opened, whole, cut, Framer.frames_of_more (framed.settled idle opened unpaused still),
      List.append_nil] at all
    exact (congrArg (List.length ∘ Prod.fst) all).symm.trans (List.length_map _)

/-- A SET and a GET whose bytes come in three pieces, the first cut inside a header. -/
def piecewise (sent : Bytes) : List Connection.Session.Event :=
  let call : Connection.Session.Event := .parse Connection.Session.noCache ⟨[], true, none, [], 4096⟩ false
  [.read (sent.take 10) true, call, .leave, .read ((sent.drop 10).take 50) false, call, call, .leave,
    .read (sent.drop 60) true, call, call, .leave]

theorem asked_requests_are_taken_piecewise : ∃ sent s,
    ({ valsize := 3 } : Options).sendBuf [1, 2, 3] [⟨.set, 7, 0⟩, ⟨.get, 7, 1⟩] = some sent ∧
      exec Connection.Session.step .start (piecewise sent) = some s ∧
      List.Forall₂ (Intact { valsize := 3 } [1, 2, 3]) [⟨.set, 7, 0⟩, ⟨.get, 7, 1⟩] s.taken := by
  have fits : ∀ ask ∈ [⟨.set, 7, 0⟩, ⟨.get, 7, 1⟩], ({ valsize := 3 } : Options).Fits [1, 2, 3] ask :=
    List.forall_mem_cons.mpr ⟨⟨⟨by decide, nofun⟩, fun _ => ⟨.inl (by decide), by decide⟩⟩,
      List.forall_mem_singleton.mpr ⟨⟨by decide, nofun⟩, nofun⟩⟩
  have sends := foldlM_append (by decide) fits []
  rw [List.nil_append] at sends
  generalize sent_eq : ([⟨.set, 7, 0⟩, ⟨.get, 7, 1⟩].map (part { valsize := 3 } [1, 2, 3])).flatten = sent at sends
  obtain ⟨s, run, two, received⟩ : ∃ s, exec Connection.Session.step .start (piecewise sent) = some s ∧
      s.taken.length = 2 ∧ s.received = sent := by
    subst sent_eq
    exact exists_exec (by decide +kernel)
  have taken := (asked_requests_are_taken (by decide) (by decide) (by decide) fits sends ⟨_, run⟩
    (received ▸ List.prefix_rfl)).1
  rw [two] at taken
  exact ⟨sent, s, sends, run, taken⟩

end Options

/-! ## Responses -/

namespace Walk

theorem total_byte (w : Walk) (b : UInt8) : w.total ≤ (w.byte b).total := by
  unfold byte complete
  split_ifs
  · exact le_rfl
  · exact le_rfl
  · exact le_rfl
  · exact le_rfl
  · exact Nat.le_succ _

theorem total_foldl (w : Walk) (bytes : Bytes) : w.total ≤ (bytes.foldl byte w).total := by
  induction bytes generalizing w with
  | nil => exact le_rfl
  | cons b rest ih => exact (w.total_byte b).trans (ih _)

end Walk

/-- The length field can hold the length of the response. What a handler builds has neither extras nor a key. -/
def Fits : Connection.Send.Reply → Prop
  | .get r => ∀ doc ∈ r.found, 4 + doc.value.length < 2 ^ 32
  | .wrote .. => True
  | .built _ bytes => ∃ fresh opcode status opaqueWord, ∃ value : Block, value.NonNull ∧ value.len < 2 ^ 32 ∧
      bytes = buildResponse fresh opcode status opaqueWord 0 (.null 0) (.null 0) value

theorem isFrame_buildResponse (fresh : ℕ → UInt8) (opcode : UInt8) (status : McbpStatus) (opaqueWord : UInt32)
    {value : Block} (nonNull : value.NonNull) (small : value.len < 2 ^ 32) :
    IsFrame (buildResponse fresh opcode status opaqueWord 0 (.null 0) (.null 0) value) := by
  have none : (Block.null 0).NonNull := rfl
  rw [buildResponse_eq fresh opcode status opaqueWord 0 none none nonNull, appendResponse, List.append_assoc,
    List.append_assoc, List.nil_append]
  refine isFrame_push rfl ?_
  show value.contents.length = (UInt32.ofNat (0 + 0 + value.contents.length)).toNat
  rw [Block.contents_length, Nat.zero_add, UInt32.toNat_ofNat_of_lt' small]

theorem isFrame_reply {r : Connection.Send.Reply} (fits : Fits r) : IsFrame r.frame := by
  cases r with
  | get r =>
    obtain ⟨id, opcode, opaqueWord, found⟩ := r
    cases found with
    | none =>
      show IsFrame (emptyResponse opcode .keyNotFound opaqueWord)
      rw [← List.append_nil (emptyResponse ..)]
      exact isFrame_push rfl rfl
    | some doc =>
      have small : 4 + doc.value.length < 2 ^ 32 := fits doc rfl
      show IsFrame (getResponse opaqueWord doc.cas doc.flags doc.value doc.datatype)
      rw [getResponse, getHeader, List.append_assoc]
      refine isFrame_push rfl ?_
      rw [List.length_append, BigEndian.beBytes_length]
      exact (UInt32.toNat_ofNat_of_lt' small).symm
  | wrote id opcode ok opaqueWord cas =>
    have bare : appendResponse [] opcode (if ok then .success else .internalError) opaqueWord cas [] [] [] =
      (responseHeader opcode (if ok then .success else .internalError) opaqueWord cas [] [] []).push ++ [] := by
        simp only [appendResponse, List.nil_append, List.append_nil]
    show IsFrame (appendResponse ..)
    rw [bare]
    exact isFrame_push rfl rfl
  | built id bytes =>
    obtain ⟨fresh, opcode, status, opaqueWord, value, nonNull, small, rfl⟩ := fits
    exact isFrame_buildResponse fresh opcode status opaqueWord nonNull small

/-- Whatever the server's loop and readers do in whatever order, while no write to the socket fails, the connection can
send and every response fits: a client that is fed what has come of the stream so far, in any pieces, is in step with
it and has counted no response that was not written; once all of it has come, it has counted each response once, under
its own status. -/
theorem written_responses_are_counted {cfg : Connection.Send.Config} {s : Connection.Send.State}
    (reached : Reach (restrict (fun _ e => e.fails = false) (Connection.Send.State.step cfg)) .start s)
    (opened : s.sendClosed = false) (fits : ∀ r ∈ s.written, Fits r) {calls : List Call}
    (fed : calls.flatMap Call.bytes <+: s.wire) (header : Bytes) (size : header.length = kHeaderSize) :
    let seen := (calls.foldl Session.call (.start header size)).view
    seen.desynced = false ∧ seen.total ≤ s.written.length ∧
      (calls.flatMap Call.bytes = s.wire → s.queued = [] → s.spill = [] →
        seen.total = s.written.length ∧ seen.result.ops = s.written.countP (statusOf ·.frame = 0) ∧
          seen.result.errors = s.written.countP (statusOf ·.frame ≠ 0) ∧
          ∀ status, seen.result.statusCounts status = s.written.countP (statusOf ·.frame = status)) := by
  intro seen
  have stream := (Connection.Send.State.streamed_of_reach reached).bytes opened
  have walked : seen = (calls.flatMap Call.bytes).foldl Walk.byte (Session.start header size).view :=
    Session.view_foldl _ calls
  have areFrames : ∀ frame ∈ s.written.map Connection.Send.Reply.frame, IsFrame frame :=
    List.forall_mem_map.mpr fun r member => isFrame_reply (fits r member)
  obtain ⟨after, total, result⟩ := (Session.between_start header size).foldl_frames areFrames
  rw [← List.flatMap_def, ← Connection.Send.framesOf, List.length_map] at total
  rw [← List.flatMap_def, ← Connection.Send.framesOf] at after result
  -- the rest of the stream is walked from where the client stands
  obtain ⟨rest, whole⟩ : calls.flatMap Call.bytes <+: Connection.Send.framesOf s.written := by
    rw [← stream, List.append_assoc]
    exact fed.trans (List.prefix_append _ _)
  rw [← whole, List.foldl_append, ← walked] at after total result
  refine ⟨?_, ?_, fun all queued spill => ?_⟩
  · rw [Bool.eq_false_iff]
    intro lost
    rw [Walk.foldl_desynced lost] at after
    exact absurd after.synced (by rw [lost]; decide)
  · exact (seen.total_foldl rest).trans_eq (total.trans (Nat.zero_add _))
  · obtain rfl : rest = [] := by
      rw [all, ← stream, queued, spill, List.flatten_nil, List.append_nil, List.append_nil] at whole
      exact List.append_right_eq_self.mp whole
    obtain ⟨ops, errors, statuses⟩ := Result.countAll_eq {} (s.written.map Connection.Send.Reply.frame)
    rw [List.countP_map] at ops errors
    rw [List.foldl_nil] at total result
    refine ⟨total.trans (Nat.zero_add _), (congrArg Result.ops result).trans (ops.trans (Nat.zero_add _)),
      (congrArg Result.errors result).trans (errors.trans (Nat.zero_add _)), fun status => ?_⟩
    have counted := statuses status
    rw [List.countP_map] at counted
    rw [result]
    exact counted.trans (Nat.zero_add _)

/-- A miss that was written in parts and a response that a handler built, in two pieces for the client. -/
theorem written_responses_are_counted_spilled : ∃ s : Connection.Send.State, ∃ calls : List Call,
    calls.flatMap Call.bytes = s.wire ∧ s.written.length = 2 ∧
      (calls.foldl Session.call (.start (List.replicate 24 0) rfl)).view.total = 2 := by
  let built := buildResponse (fun _ => 0) Opcode.noop.code .success 9 0 (.null 0) (.null 0) (.null 0)
  let tape := (Connection.Send.State.spilledBootstrap ⟨7, 0, 0, none⟩ (.built 9 built)).take 19 ++
    [.progress 22, .success]
  obtain ⟨s, reached, opened, queued, spill, written⟩ : ∃ s,
      Reach (restrict (fun _ e => e.fails = false) (Connection.Send.State.step ⟨true, 0, 0⟩)) .start s ∧
        s.sendClosed = false ∧ s.queued = [] ∧ s.spill = [] ∧ s.written = [.get ⟨7, 0, 0, none⟩, .built 9 built] :=
    exists_reach tape (by decide +kernel)
  have fits : ∀ r ∈ s.written, Fits r := by
    rw [written]
    exact List.forall_mem_cons.mpr ⟨nofun, List.forall_mem_singleton.mpr ⟨_, _, _, _, .null 0, rfl, by decide, rfl⟩⟩
  have pieces : [Call.feed (s.wire.take 30), .takeCompleted, .feed (s.wire.drop 30)].flatMap Call.bytes = s.wire := by
    simp only [List.flatMap_cons, List.flatMap_nil, Call.bytes, List.append_nil, List.nil_append, List.take_append_drop]
  obtain ⟨-, -, counted⟩ := written_responses_are_counted reached opened fits ⟨[], (List.append_nil _).trans pieces⟩
    (List.replicate 24 0) rfl
  exact ⟨s, _, pieces, by rw [written]; rfl, (counted pieces queued spill).1.trans (by rw [written]; rfl)⟩

end FluxKV.Client
