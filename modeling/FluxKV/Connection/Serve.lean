import FluxKV.Cache.DocStore
import FluxKV.Connection.Parse
import FluxKV.Protocol.Response
import FluxKV.ToMathlib.Framing

/-! # Requests off the read buffer and GETs out of the cache

`parseAndDispatch` with all it does to the front of the read buffer: which frames it takes, by which
of its three routes, and the bytes a GET answered in place appends to the response buffer. A cached
GET is answered by `serveCachedGets` where it lies contiguous in the front buffer and by `handleGet`
where it does not, through different entry points of the cache.
-/

namespace FluxKV.Connection

open Protocol Engine Cache BigEndian

/-- The lookups of `DocCache`. Each may move the cache. -/
structure DocCache (σ : Type*) where
  get : σ → DocKey → σ × Option Version
  getCopy : σ → DocKey → ℕ → σ × CopyResult

/-- How a request left the read buffer, with the response it was given on the spot. -/
inductive Route where
  | echoed (response : Bytes)
  | served (response : Bytes)
  | dispatched (call : Call) (answer : Option Bytes)
deriving DecidableEq, Repr

structure Taken where
  frame : Bytes
  route : Route
deriving DecidableEq, Repr

/-- The response a GET was given out of the cache. -/
def Taken.answer (t : Taken) : Option Bytes :=
  match t.route with
  | .echoed _ => none
  | .served response => some response
  | .dispatched _ answer => answer

/-- What one call of `parseAndDispatch` reads besides the read buffer. -/
structure Env (σ : Type*) where
  echoResponseBuf : Bytes
  takeWriteToken : Bool
  cache : Option σ
  pendingWriteBuf : Bytes
  flushBytes : ℕ

/-- A run of cached GETs answered in place. -/
structure Run (σ : Type*) where
  taken : List Taken
  cache : σ
  pendingWriteBuf : Bytes

/-- What a call returns, as `again`, and what it leaves. -/
structure Parsed (σ : Type*) where
  again : Bool
  readBuf : List Bytes
  closing : Bool
  stageFull : Bool
  taken : List Taken
  cache : Option σ
  pendingWriteBuf : Bytes

/-- A `GetCopy` result as the byte-range model sees it. -/
def copyLength : CopyResult → GetResult
  | .miss => .miss
  | .hit doc => .hit doc.content.value.length
  | .tombstone _ => .tombstone
  | .tooLarge => .tooLarge

/-- `sizeof(valueScratch_)`. -/
def kValueScratch : ℕ := 4096

def kOpaqueOffset : ℕ := 12

/-- The echo response with the request's opaque copied in. -/
def echoResponse (buf : Bytes) (opaqueWord : UInt32) : Bytes :=
  buf.take kOpaqueOffset ++ (beBytes 4 opaqueWord.toNat).reverse ++ buf.drop (kOpaqueOffset + 4)

/-- The document a contiguous request names. -/
def requestKey (front : Bytes) : DocKey :=
  let hdr := McbpHeader.pull front
  (hdr.specific, window front (kHeaderSize + hdr.extrasLen.toNat) hdr.keyLen.toNat)

/-- The body as `handleGet` gets it: no pointer for an empty one. -/
def bodyOf (hdr : McbpHeader) (rest : Bytes) : Option Bytes :=
  if 0 < hdr.bodyLen.toNat then some (rest.take hdr.bodyLen.toNat) else none

/-- The response buffer after a `GetCopy`, for the results that answer the GET. -/
def copyAnswer (out : Bytes) (hdr : McbpHeader) : CopyResult → Option Bytes
  | .hit doc => some (appendGetResponse out hdr.opaqueWord (.ofNat doc.seqno) doc.content.flags doc.content.value
      doc.content.datatype)
  | .tombstone _ => some (appendEmptyResponse out hdr.opcode .keyNotFound hdr.opaqueWord)
  | .miss => none
  | .tooLarge => none

/-- The response buffer after the callback of a `Get`. -/
def getAnswer (out : Bytes) (hdr : McbpHeader) (doc : Version) : Bytes :=
  if doc.content.deleted then appendEmptyResponse out hdr.opcode .keyNotFound hdr.opaqueWord
  else appendGetResponse out hdr.opaqueWord (.ofNat doc.seqno) doc.content.flags doc.content.value
    doc.content.datatype

namespace DocCache

variable {σ : Type*} (cache : DocCache σ)

/-- The loop of `serveCachedGets` from one offset of the front buffer on. -/
def serveLoop (flushBytes : ℕ) : ℕ → Bytes → σ → Bytes → Run σ
  | 0, _, s, out => ⟨[], s, out⟩
  | fuel + 1, front, s, out =>
    if front.length < kHeaderSize then ⟨[], s, out⟩
    else
      let hdr := McbpHeader.pull front
      let len := kHeaderSize + hdr.bodyLen.toNat
      if hdr.magic ≠ kRequestMagic ∨ hdr.opcode ≠ Opcode.get.code then ⟨[], s, out⟩
      else if front.length < len ∨ hdr.bodyLen.toNat < hdr.extrasLen.toNat + hdr.keyLen.toNat then ⟨[], s, out⟩
      else
        let copied := cache.getCopy s (requestKey front) kValueScratch
        match copyAnswer out hdr copied.2 with
        | none => ⟨[], copied.1, out⟩
        | some grown =>
          let rest := if flushBytes ≤ grown.length then ⟨[], copied.1, grown⟩
            else serveLoop flushBytes fuel (front.drop len) copied.1 grown
          { rest with taken := ⟨front.take len, .served (grown.drop out.length)⟩ :: rest.taken }

/-- Every round consumes a header, so the front buffer's length bounds the rounds. -/
def serveCachedGets (flushBytes : ℕ) (s : σ) (out : Bytes) : List Bytes → Run σ
  | [] => ⟨[], s, out⟩
  | front :: _ => cache.serveLoop flushBytes front.length front s out

/-- `handleGet` without echo: the cache and the response buffer after it, if the cache had the document.
Else the request goes to the readers. -/
def handleGet (s : Option σ) (out : Bytes) (hdr : McbpHeader) (body : Option Bytes) : Option σ × Option Bytes :=
  match s, body with
  | some s, some body =>
    let found := cache.get s (hdr.specific, window body hdr.extrasLen.toNat hdr.keyLen.toNat)
    (some found.1, found.2.map (getAnswer out hdr))
  | s, _ => (s, none)

/-- The generic path: split the body off and dispatch. -/
def dispatch (s : Option σ) (out : Bytes) (hdr : McbpHeader) (op : Opcode) (readBuf : List Bytes) : Parsed σ :=
  let rest := trimStart readBuf kHeaderSize
  let body := bodyOf hdr rest.flatten
  let got := if op = .get then cache.handleGet s out hdr body else (s, none)
  { again := true
    readBuf := trimStart rest hdr.bodyLen.toNat
    closing := false
    stageFull := false
    taken := [⟨readBuf.flatten.take (kHeaderSize + hdr.bodyLen.toNat),
      .dispatched ⟨hdr, op, body⟩ (got.2.map (·.drop out.length))⟩]
    cache := got.1
    pendingWriteBuf := got.2.getD out }

/-- A call that takes nothing. -/
def wait (env : Env σ) (readBuf : List Bytes) : Parsed σ :=
  ⟨false, readBuf, false, false, [], env.cache, env.pendingWriteBuf⟩

/-- `parseAndDispatch` from where the whole request is known to be there. -/
def takeRequest (env : Env σ) (hdr : McbpHeader) (op : Opcode) (readBuf : List Bytes) : Parsed σ :=
  let out := env.pendingWriteBuf
  let totalLen := kHeaderSize + hdr.bodyLen.toNat
  if op = .set ∧ env.takeWriteToken = false then { wait env readBuf with stageFull := true }
  else if op = .get ∧ env.echoResponseBuf ≠ [] then
    let response := echoResponse env.echoResponseBuf hdr.opaqueWord
    { wait env readBuf with
      again := true
      readBuf := trimStart readBuf totalLen
      taken := [⟨readBuf.flatten.take totalLen, .echoed response⟩]
      pendingWriteBuf := out ++ response }
  else
    match op, env.cache with
    | .get, some s =>
      let run := cache.serveCachedGets env.flushBytes s out readBuf
      if run.taken = [] then cache.dispatch (some run.cache) out hdr op readBuf
      else
        { again := true
          readBuf := trimStart readBuf (run.taken.map Taken.frame).flatten.length
          closing := false
          stageFull := false
          taken := run.taken
          cache := some run.cache
          pendingWriteBuf := run.pendingWriteBuf }
    | _, s => cache.dispatch s out hdr op readBuf

def parseAndDispatch (env : Env σ) (readBuf : List Bytes) : Parsed σ :=
  if chainLength readBuf < kHeaderSize then wait env readBuf
  else
    let hdr := McbpHeader.pull readBuf.flatten
    let closed := { wait env readBuf with readBuf := [], closing := true }
    if hdr.magic ≠ kRequestMagic then closed
    else
      match Opcode.ofCode? hdr.opcode with
      | none => closed
      | some op =>
        if chainLength readBuf < kHeaderSize + hdr.bodyLen.toNat then wait env readBuf
        else cache.takeRequest env hdr op readBuf

end DocCache

/-- A request's frame: a known header and `bodyLen` bytes. -/
def requestCut (stream : Bytes) : Cut :=
  if stream.length < kHeaderSize then .more
  else
    let hdr := McbpHeader.pull stream
    if hdr.magic ≠ kRequestMagic ∨ Opcode.ofCode? hdr.opcode = none then .bad
    else if stream.length < kHeaderSize + hdr.bodyLen.toNat then .more
    else .whole (kHeaderSize + hdr.bodyLen.toNat)

theorem requestCut_eq_whole_iff {stream : Bytes} {n : ℕ} : requestCut stream = .whole n ↔
    kHeaderSize ≤ stream.length ∧ (McbpHeader.pull stream).magic = kRequestMagic ∧
      Opcode.ofCode? (McbpHeader.pull stream).opcode ≠ none ∧
      n = kHeaderSize + (McbpHeader.pull stream).bodyLen.toNat ∧ n ≤ stream.length := by
  unfold requestCut
  constructor
  · intro whole
    split at whole
    · cases whole
    dsimp only at whole
    split at whole
    · cases whole
    split at whole
    · cases whole
    next long known enough =>
    cases whole
    rw [not_or, not_ne_iff] at known
    exact ⟨Nat.not_lt.mp long, known.1, known.2, rfl, Nat.not_lt.mp enough⟩
  · rintro ⟨long, magic, known, rfl, enough⟩
    rw [if_neg (Nat.not_lt.mpr long)]
    simp only [magic, known, ne_eq, not_true_eq_false, or_self, if_false, if_neg (Nat.not_lt.mpr enough)]

def requestFramer : Framer UInt8 where
  cut := requestCut
  pos_of_whole whole := by
    obtain ⟨-, -, -, rfl, -⟩ := requestCut_eq_whole_iff.mp whole
    exact Nat.lt_of_lt_of_le (by decide) (Nat.le_add_right ..)
  le_of_whole whole := (requestCut_eq_whole_iff.mp whole).2.2.2.2
  whole_take_append := by
    intro stream n later whole
    obtain ⟨long, magic, known, exactly, enough⟩ := requestCut_eq_whole_iff.mp whole
    have size : (stream.take n).length = n := List.length_take_of_le enough
    have header : kHeaderSize ≤ (stream.take n).length := by omega
    have same : McbpHeader.pull (stream.take n ++ later) = McbpHeader.pull stream := by
      conv_rhs => rw [← List.take_append_drop n stream]
      rw [McbpHeader.pull_append header, McbpHeader.pull_append header]
    rw [requestCut_eq_whole_iff, same, List.length_append]
    exact ⟨by omega, magic, known, exactly, by omega⟩

namespace DocCache

variable {σ : Type*} (cache : DocCache σ)

/-- A round that answers: the frame at the front is a GET that fits, and the lookup has a response. -/
structure Answers (front : Bytes) (s : σ) (out grown : Bytes) (len : ℕ) : Prop where
  whole : requestFramer.cut front = .whole len
  isGet : (McbpHeader.pull front).opcode = Opcode.get.code
  fits : (McbpHeader.pull front).extrasLen.toNat + (McbpHeader.pull front).keyLen.toNat ≤
    (McbpHeader.pull front).bodyLen.toNat
  response : copyAnswer out (McbpHeader.pull front) (cache.getCopy s (requestKey front) kValueScratch).2 = some grown

theorem serveLoop_cases (flushBytes fuel : ℕ) (front : Bytes) (s : σ) (out : Bytes) :
    (∃ s', cache.serveLoop flushBytes (fuel + 1) front s out = ⟨[], s', out⟩ ∧
      (s' = s ∨ s' = (cache.getCopy s (requestKey front) kValueScratch).1)) ∨
    ∃ len grown rest, cache.Answers front s out grown len ∧
      cache.serveLoop flushBytes (fuel + 1) front s out =
        { rest with taken := ⟨front.take len, .served (grown.drop out.length)⟩ :: rest.taken } ∧
      (rest = ⟨[], (cache.getCopy s (requestKey front) kValueScratch).1, grown⟩ ∨
        rest = cache.serveLoop flushBytes fuel (front.drop len)
          (cache.getCopy s (requestKey front) kValueScratch).1 grown) := by
  simp only [serveLoop]
  split
  · exact .inl ⟨s, rfl, .inl rfl⟩
  next long =>
  split
  · exact .inl ⟨s, rfl, .inl rfl⟩
  next known =>
  rw [not_or, not_ne_iff, not_ne_iff] at known
  split
  · exact .inl ⟨s, rfl, .inl rfl⟩
  next enough =>
  rw [not_or, Nat.not_lt, Nat.not_lt] at enough
  split
  · exact .inl ⟨_, rfl, .inr rfl⟩
  next grown response =>
  have whole : requestFramer.cut front = .whole (kHeaderSize + (McbpHeader.pull front).bodyLen.toNat) := by
    apply requestCut_eq_whole_iff.mpr
    refine ⟨Nat.not_lt.mp long, known.1, ?_, rfl, enough.1⟩
    rw [known.2, Opcode.ofCode?_code]
    exact Option.some_ne_none _
  refine .inr ⟨_, grown, _, ⟨whole, known.2, enough.2, response⟩, rfl, ?_⟩
  split
  · exact .inl rfl
  · exact .inr rfl

/-- What a run takes are the first frames of the front buffer. -/
theorem serveLoop_frames (flushBytes fuel : ℕ) (front : Bytes) (s : σ) (out : Bytes) :
    (∀ t ∈ (cache.serveLoop flushBytes fuel front s out).taken, requestFramer.IsFrame t.frame) ∧
      ((cache.serveLoop flushBytes fuel front s out).taken.map Taken.frame).flatten <+: front := by
  induction fuel generalizing front s out with
  | zero => exact ⟨fun t member => (List.not_mem_nil member).elim, List.nil_prefix⟩
  | succ fuel ih =>
    rcases cache.serveLoop_cases flushBytes fuel front s out with
      ⟨s', stopped, -⟩ | ⟨len, grown, rest, answers, run, rest_eq⟩
    · rw [stopped]
      exact ⟨fun t member => (List.not_mem_nil member).elim, List.nil_prefix⟩
    · have later : (∀ t ∈ rest.taken, requestFramer.IsFrame t.frame) ∧
          (rest.taken.map Taken.frame).flatten <+: front.drop len := by
        rcases rest_eq with rfl | rfl
        · exact ⟨fun t member => (List.not_mem_nil member).elim, List.nil_prefix⟩
        · exact ih ..
      rw [run]
      refine ⟨List.forall_mem_cons.mpr ⟨Framer.isFrame_take answers.whole, later.1⟩, ?_⟩
      conv_rhs => rw [← List.take_append_drop len front]
      exact List.prefix_append_right_inj _ |>.mpr later.2

theorem serveCachedGets_frames (flushBytes : ℕ) (s : σ) (out : Bytes) (readBuf : List Bytes) :
    (∀ t ∈ (cache.serveCachedGets flushBytes s out readBuf).taken, requestFramer.IsFrame t.frame) ∧
      ((cache.serveCachedGets flushBytes s out readBuf).taken.map Taken.frame).flatten <+: readBuf.flatten := by
  cases readBuf with
  | nil => exact ⟨fun t member => (List.not_mem_nil member).elim, List.nil_prefix⟩
  | cons front chain =>
    have served := cache.serveLoop_frames flushBytes front.length front s out
    exact ⟨served.1, served.2.trans (List.prefix_append _ _)⟩

/-- A call that takes whole frames off the front and nothing else. -/
structure Takes (readBuf : List Bytes) (p : Parsed σ) : Prop where
  again : p.again = true
  opened : p.closing = false
  roomy : p.stageFull = false
  areFrames : ∀ t ∈ p.taken, requestFramer.IsFrame t.frame
  nonempty : p.taken ≠ []
  split : (p.taken.map Taken.frame).flatten ++ p.readBuf.flatten = readBuf.flatten

theorem dispatch_takes (s : Option σ) (out : Bytes) (op : Opcode) {readBuf : List Bytes} {len : ℕ}
    (whole : requestFramer.cut readBuf.flatten = .whole len) :
    Takes readBuf (cache.dispatch s out (McbpHeader.pull readBuf.flatten) op readBuf) := by
  obtain ⟨-, -, -, rfl, -⟩ := requestCut_eq_whole_iff.mp whole
  refine ⟨rfl, rfl, rfl, List.forall_mem_singleton.mpr (Framer.isFrame_take whole), List.cons_ne_nil _ _, ?_⟩
  simp only [dispatch, List.map_cons, List.map_nil, List.flatten_cons, List.flatten_nil, List.append_nil,
    trimStart_flatten, List.drop_drop]
  exact List.take_append_drop _ _

variable (env : Env σ) {readBuf : List Bytes}

theorem parseAndDispatch_of_more (more : requestFramer.cut readBuf.flatten = .more) :
    cache.parseAndDispatch env readBuf = wait env readBuf := by
  have unfolded : requestCut readBuf.flatten = .more := more
  unfold requestCut at unfolded
  simp only [parseAndDispatch, chainLength_eq]
  split
  · rfl
  next long =>
  rw [if_neg long] at unfolded
  dsimp only at unfolded
  split at unfolded
  · cases unfolded
  next known =>
  rw [not_or, not_ne_iff] at known
  split at unfolded
  · next short =>
    rw [if_neg (not_ne_iff.mpr known.1)]
    split
    · next absent => exact absurd absent known.2
    · rw [if_pos short]
  · cases unfolded

theorem parseAndDispatch_of_bad (bad : requestFramer.cut readBuf.flatten = .bad) :
    cache.parseAndDispatch env readBuf = { wait env readBuf with readBuf := [], closing := true } := by
  have unfolded : requestCut readBuf.flatten = .bad := bad
  unfold requestCut at unfolded
  simp only [parseAndDispatch, chainLength_eq]
  split at unfolded
  · cases unfolded
  next long =>
  rw [if_neg long]
  dsimp only at unfolded
  split at unfolded
  · next unknown =>
    rcases unknown with magic | absent
    · rw [if_pos magic]
    · rw [absent, ite_self]
  · split at unfolded <;> cases unfolded

theorem parseAndDispatch_of_whole {len : ℕ} (whole : requestFramer.cut readBuf.flatten = .whole len) :
    ∃ op, Opcode.ofCode? (McbpHeader.pull readBuf.flatten).opcode = some op ∧
      cache.parseAndDispatch env readBuf = cache.takeRequest env (McbpHeader.pull readBuf.flatten) op readBuf := by
  obtain ⟨long, magic, known, exactly, enough⟩ := requestCut_eq_whole_iff.mp whole
  obtain ⟨op, known⟩ := Option.ne_none_iff_exists'.mp known
  refine ⟨op, known, ?_⟩
  simp only [parseAndDispatch, chainLength_eq]
  rw [if_neg (Nat.not_lt.mpr long), if_neg (not_ne_iff.mpr magic), known]
  exact if_neg (Nat.not_lt.mpr (exactly ▸ enough))

/-- A complete request is refused for want of a write token or taken off, perhaps with more behind it. -/
theorem takeRequest_cases (op : Opcode) {len : ℕ} (whole : requestFramer.cut readBuf.flatten = .whole len) :
    (op = .set ∧ cache.takeRequest env (McbpHeader.pull readBuf.flatten) op readBuf =
      { wait env readBuf with stageFull := true }) ∨
    Takes readBuf (cache.takeRequest env (McbpHeader.pull readBuf.flatten) op readBuf) := by
  simp only [takeRequest]
  split
  · next refused => exact .inl ⟨refused.1, rfl⟩
  right
  split
  · obtain ⟨-, -, -, rfl, -⟩ := requestCut_eq_whole_iff.mp whole
    refine ⟨rfl, rfl, rfl, List.forall_mem_singleton.mpr (Framer.isFrame_take whole), List.cons_ne_nil _ _, ?_⟩
    simp only [List.map_cons, List.map_nil, List.flatten_cons, List.flatten_nil, List.append_nil, trimStart_flatten]
    exact List.take_append_drop _ _
  split
  · next s _ _ _ =>
    split
    · exact cache.dispatch_takes _ _ _ whole
    · next some =>
      obtain ⟨areFrames, rest, split⟩ := cache.serveCachedGets_frames env.flushBytes s env.pendingWriteBuf readBuf
      refine ⟨rfl, rfl, rfl, areFrames, some, ?_⟩
      rw [trimStart_flatten, ← split, List.drop_left]
  · exact cache.dispatch_takes _ _ _ whole

/-- What a call does to the stream: it takes frames off its front, closes at a header it does not know, and
gives up only for want of input or room. -/
structure CallSpec (readBuf : List Bytes) (p : Parsed σ) : Prop where
  areFrames : ∀ t ∈ p.taken, requestFramer.IsFrame t.frame
  closed : p.closing = true → p.taken = []
  split : p.closing = false → (p.taken.map Taken.frame).flatten ++ p.readBuf.flatten = readBuf.flatten
  stopped : p.again = false → p.closing = false → p.stageFull = false → requestFramer.cut p.readBuf.flatten = .more

theorem parseAndDispatch_spec : CallSpec readBuf (cache.parseAndDispatch env readBuf) := by
  cases front : requestFramer.cut readBuf.flatten with
  | more =>
    rw [cache.parseAndDispatch_of_more env front]
    exact ⟨fun t member => (List.not_mem_nil member).elim, fun _ => rfl, fun _ => rfl, fun _ _ _ => front⟩
  | bad =>
    rw [cache.parseAndDispatch_of_bad env front]
    exact ⟨fun t member => (List.not_mem_nil member).elim, fun _ => rfl, (fun absent => nomatch absent),
      fun _ absent => nomatch absent⟩
  | whole len =>
    obtain ⟨op, -, taken⟩ := cache.parseAndDispatch_of_whole env front
    rw [taken]
    rcases cache.takeRequest_cases env op front with ⟨-, refused⟩ | takes
    · rw [refused]
      exact ⟨fun t member => (List.not_mem_nil member).elim, fun _ => rfl, fun _ => rfl,
        fun _ _ absent => nomatch absent⟩
    · exact ⟨takes.areFrames, (fun closed => nomatch takes.opened.symm.trans closed), fun _ => takes.split,
        fun stopped => nomatch takes.again.symm.trans stopped⟩

end DocCache

end FluxKV.Connection
