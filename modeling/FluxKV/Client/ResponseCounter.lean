import FluxKV.Protocol.Response

/-! # Counting responses in a stream

In pre-generate mode the client walks the framing of the responses in whatever chunks the socket hands back: a header
is collected in a buffer, its status is counted, and its body is skipped. The walk is the same as one that looks at
one byte after the other, so that it does not depend on the chunks.
-/

namespace FluxKV.Client

open Protocol BigEndian

def kAltResponseMagic : UInt8 := 0x18

def isResponse (magic : UInt8) : Bool := magic == kResponseMagic || magic == kAltResponseMagic

def getU16 (p : Bytes) (off : ℕ) : UInt16 := .ofNat (beNat (window p off 2))

def getU32 (p : Bytes) (off : ℕ) : UInt32 := .ofNat (beNat (window p off 4))

/-- `memcpy` into a buffer. -/
def copyAt (buffer : Bytes) (off : ℕ) (bytes : Bytes) : Bytes :=
  buffer.take off ++ bytes ++ buffer.drop (off + bytes.length)

/-- What `Feed` adds to of `struct Result`. -/
structure Result where
  ops : ℕ := 0
  errors : ℕ := 0
  statusCounts : UInt16 → ℕ := fun _ => 0

/-- A response with this status. -/
def Result.count (r : Result) (status : UInt16) : Result where
  ops := if status = 0 then r.ops + 1 else r.ops
  errors := if status = 0 then r.errors else r.errors + 1
  statusCounts := Function.update r.statusCounts status (r.statusCounts status + 1)

theorem length_copyAt {buffer bytes : Bytes} {off : ℕ} (inside : off + bytes.length ≤ buffer.length) :
    (copyAt buffer off bytes).length = buffer.length := by
  simp only [copyAt, List.length_append, List.length_take, List.length_drop]
  omega

theorem copyAt_nil (buffer : Bytes) (off : ℕ) : copyAt buffer off [] = buffer := by
  rw [copyAt, List.append_nil, List.length_nil, Nat.add_zero, List.take_append_drop]

/-- Two copies in a row are one. -/
theorem copyAt_copyAt {buffer first : Bytes} {off : ℕ} (second : Bytes)
    (inside : off + first.length ≤ buffer.length) :
    copyAt (copyAt buffer off first) (off + first.length) second = copyAt buffer off (first ++ second) := by
  have front : (buffer.take off ++ first).length = off + first.length := by
    rw [List.length_append, List.length_take, Nat.min_eq_left (by omega)]
  simp only [copyAt]
  rw [← front, List.take_left, ← List.drop_drop, List.drop_left, List.drop_drop, front, List.append_assoc _ first,
    List.length_append, ← Nat.add_assoc]

/-- `class ResponseCounter`. A header that is complete is taken at once, so that the buffer is never full. -/
structure ResponseCounter where
  header : Bytes
  haveHeader : ℕ
  bodyRemaining : ℕ
  completed : ℕ
  length_header : header.length = kHeaderSize
  haveHeader_lt : haveHeader < kHeaderSize

namespace ResponseCounter

/-- The bytes of a chunk that go to the header. -/
def headerBytes (c : ResponseCounter) (p : Bytes) : Bytes := p.take (kHeaderSize - c.haveHeader)

theorem inside (c : ResponseCounter) (p : Bytes) :
    c.haveHeader + (c.headerBytes p).length ≤ c.header.length := by
  have held := c.haveHeader_lt
  have size := c.length_header
  have taken : (c.headerBytes p).length ≤ kHeaderSize - c.haveHeader := List.length_take_le ..
  omega

/-- The buffer with what a chunk adds to it. -/
def filled (c : ResponseCounter) (p : Bytes) : Bytes := copyAt c.header c.haveHeader (c.headerBytes p)

theorem length_filled (c : ResponseCounter) (p : Bytes) : (c.filled p).length = kHeaderSize :=
  (length_copyAt (c.inside p)).trans c.length_header

/-- `Feed`: what it returns, and the counter and the result it leaves. -/
def feed (c : ResponseCounter) (r : Result) (p : Bytes) : Bool × ResponseCounter × Result :=
  if _empty : p = [] then (true, c, r)
  else if _inBody : 0 < c.bodyRemaining then
    let take := min p.length c.bodyRemaining
    feed { c with bodyRemaining := c.bodyRemaining - take } r (p.drop take)
  else
    let take := (c.headerBytes p).length
    if more : c.haveHeader + take < kHeaderSize then
      (true, { c with
        header := c.filled p
        haveHeader := c.haveHeader + take
        length_header := c.length_filled p
        haveHeader_lt := more }, r)
    else
      let c' := { c with
        header := c.filled p
        haveHeader := 0
        length_header := c.length_filled p
        haveHeader_lt := Nat.succ_pos 23 }
      if isResponse (c'.header.getD 0 0) = false then (false, c', r)
      else
        feed { c' with
          bodyRemaining := (getU32 c'.header 8).toNat
          completed := c'.completed + 1 } (r.count (getU16 c'.header 6)) (p.drop take)
termination_by p.length
decreasing_by
  · have := List.length_pos_iff.mpr _empty
    simp only [List.length_drop]
    omega
  · have := List.length_pos_iff.mpr _empty
    have held := c.haveHeader_lt
    simp only [headerBytes, List.length_drop, List.length_take]
    omega

/-- The counter after `TakeCompleted`, and what it returns. -/
def takeCompleted (c : ResponseCounter) : ResponseCounter × ℕ := ({ c with completed := 0 }, c.completed)

end ResponseCounter

/-! ## The walk, one byte after the other -/

/-- What the bytes so far come to. `total` counts the responses that were and were not taken. -/
@[ext] structure Walk where
  header : Bytes
  haveHeader : ℕ
  bodyRemaining : ℕ
  total : ℕ
  result : Result
  desynced : Bool

namespace Walk

/-- A header is complete. -/
def complete (w : Walk) (header : Bytes) : Walk :=
  if isResponse (header.getD 0 0) = false then { w with header := header, haveHeader := 0, desynced := true }
  else
    { w with
      header := header
      haveHeader := 0
      bodyRemaining := (getU32 header 8).toNat
      total := w.total + 1
      result := w.result.count (getU16 header 6) }

def byte (w : Walk) (b : UInt8) : Walk :=
  if w.desynced then w
  else if 0 < w.bodyRemaining then { w with bodyRemaining := w.bodyRemaining - 1 }
  else if w.haveHeader + 1 < kHeaderSize then
    { w with header := copyAt w.header w.haveHeader [b], haveHeader := w.haveHeader + 1 }
  else w.complete (copyAt w.header w.haveHeader [b])

variable {w : Walk} {bytes : Bytes}

theorem foldl_desynced (lost : w.desynced = true) (bytes : Bytes) : bytes.foldl byte w = w := by
  induction bytes with
  | nil => rfl
  | cons b rest ih => rw [List.foldl_cons, byte, if_pos lost, ih]

/-- Bytes of a body are skipped. -/
theorem foldl_body (synced : w.desynced = false) (inside : bytes.length ≤ w.bodyRemaining) :
    bytes.foldl byte w = { w with bodyRemaining := w.bodyRemaining - bytes.length } := by
  induction bytes generalizing w with
  | nil => rfl
  | cons b rest ih =>
    rw [List.length_cons] at inside
    have step : w.byte b = { w with bodyRemaining := w.bodyRemaining - 1 } := by
      rw [byte, if_neg (by rw [synced]; exact Bool.false_ne_true), if_pos (by omega)]
    rw [List.foldl_cons, step, ih (w := { w with bodyRemaining := w.bodyRemaining - 1 }) synced
      (by show _ ≤ w.bodyRemaining - 1; omega)]
    simp only [List.length_cons, Nat.sub_sub, Nat.add_comm 1]

/-- Bytes of a header are collected. -/
theorem foldl_header (synced : w.desynced = false) (outside : w.bodyRemaining = 0)
    (size : w.header.length = kHeaderSize) (short : w.haveHeader + bytes.length < kHeaderSize) :
    bytes.foldl byte w =
      { w with header := copyAt w.header w.haveHeader bytes, haveHeader := w.haveHeader + bytes.length } := by
  induction bytes generalizing w with
  | nil => simp only [List.foldl_nil, copyAt_nil, List.length_nil, Nat.add_zero]
  | cons b rest ih =>
    rw [List.length_cons] at short
    have step : w.byte b =
        { w with header := copyAt w.header w.haveHeader [b], haveHeader := w.haveHeader + 1 } := by
      rw [byte, if_neg (by rw [synced]; exact Bool.false_ne_true), if_neg (by omega), if_pos (by omega)]
    have room : w.haveHeader + [b].length ≤ w.header.length := by
      rw [size, List.length_singleton]
      omega
    have later := ih (w := { w with header := copyAt w.header w.haveHeader [b], haveHeader := w.haveHeader + 1 }) synced
      outside ((length_copyAt room).trans size) (by dsimp only; omega)
    rw [List.foldl_cons, step, later]
    dsimp only
    rw [show w.haveHeader + 1 = w.haveHeader + [b].length from rfl, copyAt_copyAt rest room, List.singleton_append,
      List.length_singleton, List.length_cons, Nat.add_assoc, Nat.add_comm 1]

/-- The bytes that make a header complete. -/
theorem foldl_complete (synced : w.desynced = false) (outside : w.bodyRemaining = 0)
    (size : w.header.length = kHeaderSize) (held : w.haveHeader < kHeaderSize)
    (whole : w.haveHeader + bytes.length = kHeaderSize) :
    bytes.foldl byte w = w.complete (copyAt w.header w.haveHeader bytes) := by
  obtain ⟨front, b, rfl⟩ : ∃ front b, bytes = front ++ [b] := by
    rcases List.eq_nil_or_concat bytes with rfl | ⟨front, b, rfl⟩
    · rw [List.length_nil] at whole
      omega
    · exact ⟨front, b, List.concat_eq_append⟩
  rw [List.length_append, List.length_singleton] at whole
  have room : w.haveHeader + front.length ≤ w.header.length := by omega
  rw [List.foldl_append, foldl_header synced outside size (by omega), List.foldl_cons, List.foldl_nil, byte,
    if_neg (by dsimp only; rw [synced]; exact Bool.false_ne_true), if_neg (by dsimp only; omega),
    if_neg (by dsimp only; omega)]
  dsimp only
  rw [copyAt_copyAt [b] room]
  rfl

end Walk

/-! ## The client's calls -/

/-- The counter as a connection uses it: until `Feed` returns false, with the sum of what `TakeCompleted` gave. -/
structure Session where
  counter : ResponseCounter
  result : Result
  taken : ℕ
  desynced : Bool

inductive Call where
  | feed (p : Bytes)
  | takeCompleted

/-- The bytes that calls are fed. -/
def Call.bytes : Call → Bytes
  | feed p => p
  | takeCompleted => []

namespace Session

/-- A new counter, whose buffer can hold anything. -/
def start (header : Bytes) (size : header.length = kHeaderSize) : Session :=
  ⟨⟨header, 0, 0, 0, size, Nat.succ_pos 23⟩, {}, 0, false⟩

def call (s : Session) : Call → Session
  | .feed p =>
    if s.desynced then s
    else
      let (ok, counter, result) := s.counter.feed s.result p
      { s with
        counter := counter
        result := result
        desynced := !ok }
  | .takeCompleted => { s with counter := s.counter.takeCompleted.1, taken := s.taken + s.counter.takeCompleted.2 }

def view (s : Session) : Walk :=
  ⟨s.counter.header, s.counter.haveHeader, s.counter.bodyRemaining, s.taken + s.counter.completed, s.result, s.desynced⟩

end Session

/-- A chunk that makes the header complete. -/
theorem ResponseCounter.foldl_headerBytes (c : ResponseCounter) (r : Result) (taken : ℕ) {p : Bytes}
    (outside : c.bodyRemaining = 0) (whole : ¬ c.haveHeader + (c.headerBytes p).length < kHeaderSize) :
    let w := Session.view ⟨c, r, taken, false⟩
    p.foldl Walk.byte w = (p.drop (c.headerBytes p).length).foldl Walk.byte (w.complete (c.filled p)) := by
  intro w
  have inside := c.inside p
  have size := c.length_header
  have cut : c.headerBytes p ++ p.drop (c.headerBytes p).length = p :=
    List.prefix_iff_eq_append.mp ( List.take_prefix _ p)
  nth_rw 1 [← cut]
  rw [List.foldl_append]
  congr 1
  have full : c.haveHeader + (c.headerBytes p).length = kHeaderSize := by omega
  exact Walk.foldl_complete rfl outside c.length_header c.haveHeader_lt full

/-- `Feed` walks over the bytes of its chunk. -/
theorem ResponseCounter.feed_eq (c : ResponseCounter) (r : Result) (taken : ℕ) (p : Bytes) :
    Session.view ⟨(c.feed r p).2.1, (c.feed r p).2.2, taken, !(c.feed r p).1⟩ =
      p.foldl Walk.byte (Session.view ⟨c, r, taken, false⟩) := by
  fun_induction feed c r p with
  | case1 c r => rfl
  | case2 c r p some inBody take ih =>
    have skipped : (p.take take).foldl Walk.byte (Session.view ⟨c, r, taken, false⟩) = _ :=
      Walk.foldl_body rfl ((List.length_take_le ..).trans (Nat.min_le_right ..))
    rw [ih]
    nth_rw 2 [← List.take_append_drop take p]
    rw [List.foldl_append, skipped, List.length_take, Nat.min_eq_left (Nat.min_le_left ..)]
    rfl
  | case3 c r p some outside take more =>
    have all : c.headerBytes p = p := by
      have short : (c.headerBytes p).length < kHeaderSize - c.haveHeader := by omega
      rw [headerBytes, List.length_take] at short
      exact List.take_of_length_le (by omega)
    have fits : c.haveHeader + p.length < kHeaderSize := all ▸ more
    rw [Walk.foldl_header rfl (Nat.eq_zero_of_not_pos outside) c.length_header fits]
    simp only [Session.view, filled, take, all, Bool.not_true]
  | case4 c r p some outside take whole c' bad =>
    rw [c.foldl_headerBytes r taken (Nat.eq_zero_of_not_pos outside) whole, Walk.complete, if_pos bad]
    exact (Walk.foldl_desynced rfl _).symm
  | case5 c r p some outside take whole c' good ih =>
    rw [c.foldl_headerBytes r taken (Nat.eq_zero_of_not_pos outside) whole, Walk.complete, if_neg good, ih]
    rfl

namespace Session

/-- One call, as the walk sees it. -/
theorem view_call (s : Session) (call : Call) : (s.call call).view = call.bytes.foldl Walk.byte s.view := by
  cases call with
  | feed p =>
    cases lost : s.desynced with
    | true =>
      rw [Session.call, if_pos lost]
      exact (Walk.foldl_desynced lost p).symm
    | false =>
      rw [Session.call, if_neg (by rw [lost]; exact Bool.false_ne_true)]
      have walked := s.counter.feed_eq s.result s.taken p
      rw [← lost] at walked
      exact walked
  | takeCompleted => rfl

/-- Calls in a row walk over the bytes they are fed. -/
theorem view_foldl (s : Session) (calls : List Call) :
    (calls.foldl Session.call s).view = (calls.flatMap Call.bytes).foldl Walk.byte s.view := by
  induction calls generalizing s with
  | nil => rfl
  | cons call calls ih => rw [List.foldl_cons, ih, view_call, List.flatMap_cons, List.foldl_append]

end Session

/-! ## Streams of frames -/

/-- A complete response frame. -/
structure IsFrame (frame : Bytes) : Prop where
  response : isResponse (frame.getD 0 0) = true
  length_eq : frame.length = kHeaderSize + (getU32 frame 8).toNat

/-- What the server appends is such a frame. -/
theorem isFrame_push {hdr : McbpHeader} (magic : hdr.magic = kResponseMagic) {body : Bytes}
    (announced : body.length = hdr.bodyLen.toNat) : IsFrame (hdr.push ++ body) := by
  have read := McbpHeader.pull_push hdr body
  refine ⟨?_, ?_⟩
  · change isResponse (McbpHeader.pull (hdr.push ++ body)).magic = true
    rw [read, magic]
    decide
  · change _ = kHeaderSize + (McbpHeader.pull (hdr.push ++ body)).bodyLen.toNat
    rw [read, List.length_append, McbpHeader.push_length, announced]

def statusOf (frame : Bytes) : UInt16 := getU16 frame 6

/-- What frames add to a result. -/
def Result.countAll (r : Result) (frames : List Bytes) : Result :=
  frames.foldl (fun r frame => r.count (statusOf frame)) r

theorem Result.countAll_eq (r : Result) (frames : List Bytes) :
    (r.countAll frames).ops = r.ops + frames.countP (statusOf · = 0) ∧
      (r.countAll frames).errors = r.errors + frames.countP (statusOf · ≠ 0) ∧
      ∀ status,
        (r.countAll frames).statusCounts status = r.statusCounts status + frames.countP (statusOf · = status) := by
  induction frames generalizing r with
  | nil => exact ⟨rfl, rfl, fun _ => rfl⟩
  | cons frame frames ih =>
    obtain ⟨ops, errors, statuses⟩ := ih (r.count (statusOf frame))
    refine ⟨?_, ?_, fun status => ?_⟩
    · rw [countAll, List.foldl_cons, ← countAll, ops, List.countP_cons, count]
      dsimp only
      split
      · simp_all
        omega
      · simp_all
    · rw [countAll, List.foldl_cons, ← countAll, errors, List.countP_cons, count]
      dsimp only
      split
      · simp_all
      · simp_all
        omega
    · rw [countAll, List.foldl_cons, ← countAll, statuses, List.countP_cons, count]
      dsimp only
      rcases eq_or_ne (statusOf frame) status with rfl | other
      · simp
        omega
      · simp [Function.update_of_ne other.symm, other]

namespace Walk

variable {w : Walk}

/-- Between two frames. -/
structure Between (w : Walk) : Prop where
  synced : w.desynced = false
  no_header : w.haveHeader = 0
  no_body : w.bodyRemaining = 0
  size : w.header.length = kHeaderSize

/-- A header that comes in whole replaces the buffer. -/
theorem Between.foldl_header (between : w.Between) {header : Bytes} (size : header.length = kHeaderSize) :
    header.foldl byte w = w.complete header := by
  have whole : copyAt w.header w.haveHeader header = header := by
    rw [copyAt, between.no_header, List.take_zero, List.nil_append, Nat.zero_add, size, ← between.size,
      List.drop_length, List.append_nil]
  have done : header.foldl byte w = _ := foldl_complete between.synced between.no_body between.size
    (by rw [between.no_header]; exact Nat.succ_pos 23) (by rw [between.no_header, Nat.zero_add, size])
  rw [done, whole]

theorem Between.foldl_frame (between : w.Between) {frame : Bytes} (isFrame : IsFrame frame) :
    (frame.foldl byte w).Between ∧ (frame.foldl byte w).total = w.total + 1 ∧
      (frame.foldl byte w).result = w.result.count (statusOf frame) := by
  have size : (frame.take kHeaderSize).length = kHeaderSize := by
    rw [List.length_take, isFrame.length_eq, Nat.min_eq_left (Nat.le_add_right ..)]
  have field : ∀ off len, off + len ≤ kHeaderSize →
      Protocol.window (frame.take kHeaderSize) off len = Protocol.window frame off len := by
    intro off len inside
    conv_rhs => rw [← List.take_append_drop kHeaderSize frame]
    exact (window_append (by rw [size]; exact inside) _).symm
  have magic : (frame.take kHeaderSize).getD 0 0 = frame.getD 0 0 := by
    rw [List.getD_eq_getElem?_getD, List.getElem?_take_of_lt (by decide), List.getD_eq_getElem?_getD]
  have good : ¬ isResponse ((frame.take kHeaderSize).getD 0 0) = false := by
    rw [magic, isFrame.response]
    decide
  have rest : (frame.drop kHeaderSize).length = (getU32 frame 8).toNat := by
    rw [List.length_drop, isFrame.length_eq, Nat.add_sub_cancel_left]
  let entered : Walk := { w with
    header := frame.take kHeaderSize
    haveHeader := 0
    bodyRemaining := (getU32 frame 8).toNat
    total := w.total + 1
    result := w.result.count (statusOf frame) }
  have begun : w.complete (frame.take kHeaderSize) = entered := by
    rw [complete, if_neg good, getU32, getU16, field 8 4 (by decide), field 6 2 (by decide)]
    rfl
  have ends : frame.foldl byte w = { entered with bodyRemaining := 0 } := by
    conv_lhs => rw [← List.take_append_drop kHeaderSize frame]
    rw [List.foldl_append, between.foldl_header size, begun, foldl_body (w := entered) between.synced rest.le, rest]
    simp only [entered, Nat.sub_self]
  rw [ends]
  exact ⟨⟨between.synced, rfl, rfl, size⟩, rfl, rfl⟩

/-- A stream of frames. -/
theorem Between.foldl_frames (between : w.Between) {frames : List Bytes} (areFrames : ∀ frame ∈ frames, IsFrame frame) :
    (frames.flatten.foldl byte w).Between ∧ (frames.flatten.foldl byte w).total = w.total + frames.length ∧
      (frames.flatten.foldl byte w).result = w.result.countAll frames := by
  induction frames generalizing w with
  | nil => exact ⟨between, rfl, rfl⟩
  | cons frame frames ih =>
    obtain ⟨isFrame, areFrames⟩ := List.forall_mem_cons.mp areFrames
    obtain ⟨after, one, counted⟩ := between.foldl_frame isFrame
    obtain ⟨last, all, result⟩ := ih after areFrames
    rw [List.flatten_cons, List.foldl_append]
    refine ⟨last, ?_, ?_⟩
    · rw [all, one, List.length_cons]
      omega
    · rw [result, counted]
      rfl

end Walk

theorem Session.between_start (header : Bytes) (size : header.length = kHeaderSize) :
    (Session.start header size).view.Between := ⟨rfl, rfl, rfl, size⟩

/-- Two ways of feeding one stream end alike; complete frames are counted once each, under their own status; and a
header with another magic stops the count at the frame before it. -/
theorem counting_is_independent_of_chunks (header : Bytes) (size : header.length = kHeaderSize) (calls : List Call) :
    let run := fun calls : List Call => (calls.foldl Session.call (.start header size)).view
    (∀ calls', calls'.flatMap Call.bytes = calls.flatMap Call.bytes → run calls' = run calls) ∧
      (∀ frames : List Bytes, (∀ frame ∈ frames, IsFrame frame) → calls.flatMap Call.bytes = frames.flatten →
        (run calls).desynced = false ∧ (run calls).haveHeader = 0 ∧ (run calls).bodyRemaining = 0 ∧
        (run calls).total = frames.length ∧ (run calls).result.ops = frames.countP (statusOf · = 0) ∧
        (run calls).result.errors = frames.countP (statusOf · ≠ 0) ∧
        ∀ status, (run calls).result.statusCounts status = frames.countP (statusOf · = status)) ∧
      ∀ (frames : List Bytes) (bad rest : Bytes), (∀ frame ∈ frames, IsFrame frame) → bad.length = kHeaderSize →
        isResponse (bad.getD 0 0) = false → calls.flatMap Call.bytes = frames.flatten ++ bad ++ rest →
          (run calls).desynced = true ∧ (run calls).total = frames.length := by
  intro run
  have walked : ∀ calls, run calls = (calls.flatMap Call.bytes).foldl Walk.byte (Session.start header size).view :=
    fun calls => Session.view_foldl _ calls
  have between := Session.between_start header size
  refine ⟨?_, ?_, ?_⟩
  · intro calls' same
    rw [walked, walked, same]
  · intro frames areFrames stream
    obtain ⟨after, total, result⟩ := between.foldl_frames areFrames
    obtain ⟨ops, errors, statuses⟩ := Result.countAll_eq {} frames
    rw [walked, stream]
    refine ⟨after.synced, after.no_header, after.no_body, total.trans (Nat.zero_add _), ?_, ?_, fun status => ?_⟩
    · rw [result]
      exact ops.trans (Nat.zero_add _)
    · rw [result]
      exact errors.trans (Nat.zero_add _)
    · rw [result]
      exact (statuses status).trans (Nat.zero_add _)
  · intro frames bad rest areFrames whole other stream
    obtain ⟨after, total, _⟩ := between.foldl_frames areFrames
    have stopped : (Walk.complete (frames.flatten.foldl Walk.byte (Session.start header size).view) bad) =
        { frames.flatten.foldl Walk.byte (Session.start header size).view with
          header := bad
          haveHeader := 0
          desynced := true } := if_pos other
    rw [walked, stream, List.foldl_append, List.foldl_append, after.foldl_header whole, stopped,
      Walk.foldl_desynced rfl]
    exact ⟨rfl, total.trans (Nat.zero_add _)⟩

/-- A refused write's answer that comes in two pieces is one error. -/
theorem counting_is_independent_of_chunks_refused :
    let answer := emptyResponse Opcode.set.code .tmpFail 7
    let calls := [.feed (answer.take 10), .takeCompleted, .feed (answer.drop 10)]
    let run := (calls.foldl Session.call (.start (List.replicate 24 0) rfl)).view
    run.total = 1 ∧ run.result.errors = 1 := by
  intro answer calls run
  have isFrame : IsFrame answer := List.append_nil answer ▸ isFrame_push rfl rfl
  obtain ⟨_, counted, _⟩ := counting_is_independent_of_chunks (List.replicate 24 0) rfl calls
  obtain ⟨_, _, _, total, _, errors, _⟩ := counted [answer] (List.forall_mem_singleton.mpr isFrame) (by decide)
  exact ⟨total, errors.trans (by decide)⟩

end FluxKV.Client
