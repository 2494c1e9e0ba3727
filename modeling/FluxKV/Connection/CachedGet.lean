import FluxKV.Connection.Serve

/-! # The two ways to a cached GET

A GET whose bytes lie contiguous in the front buffer is answered by `serveCachedGets` from a copy of the
document, any other by `handleGet` from the document itself. Both give the same response, and look for
the same document, except that `handleGet` is given no body where there is none and then does not ask the
cache at all.
-/

namespace FluxKV.Connection

open Protocol Engine Cache BigEndian

/-- The response both paths give for a document. -/
def docResponse (hdr : McbpHeader) (doc : Version) : Bytes :=
  if doc.content.deleted then emptyResponse hdr.opcode .keyNotFound hdr.opaqueWord
  else getResponse hdr.opaqueWord (.ofNat doc.seqno) doc.content.flags doc.content.value doc.content.datatype

theorem getAnswer_eq (out : Bytes) (hdr : McbpHeader) (doc : Version) :
    getAnswer out hdr doc = out ++ docResponse hdr doc := by
  unfold getAnswer docResponse
  split
  · exact appendEmptyResponse_eq ..
  · exact appendGetResponse_eq ..

/-- The value of a document, if it has one, fits the scratch buffer of the fast path. -/
def Copyable (doc : Version) : Prop := doc.content.deleted = true ∨ doc.content.value.length ≤ kValueScratch

theorem copyAnswer_getCopy_iff (out : Bytes) (hdr : McbpHeader) {grown : Bytes} {store : DocStore} {key : DocKey} :
    copyAnswer out hdr (store.getCopy key kValueScratch) = some grown ↔
      ∃ doc, store.get key = some doc ∧ Copyable doc ∧ grown = out ++ docResponse hdr doc := by
  unfold DocStore.getCopy Copyable
  cases found : store.get key with
  | none => simp [copyAnswer]
  | some doc =>
    simp only [Option.some.injEq, exists_eq_left']
    split
    · next deleted =>
      rw [copyAnswer, appendEmptyResponse_eq, docResponse, if_pos deleted, Option.some_inj, eq_comm]
      exact (and_iff_right (.inl deleted)).symm
    next live =>
    split
    · next large =>
      exact iff_of_false (Option.some_ne_none _).symm fun found => found.1.elim live (Nat.not_le.mpr large)
    · next small =>
      rw [copyAnswer, appendGetResponse_eq, docResponse, if_neg live, Option.some_inj, eq_comm]
      exact (and_iff_right (.inr (Nat.not_lt.mp small))).symm

def lengths (store : DocStore) (vbucket : UInt16) (key : Bytes) : GetResult :=
  copyLength (store.getCopy (vbucket, key) kValueScratch)

/-- What the byte-range model reads. -/
def Env.server {σ : Type*} (env : Env σ) (view : σ → DocStore) : Server :=
  ⟨env.echoResponseBuf ≠ [], env.takeWriteToken, env.cache.map fun s => lengths (view s), env.pendingWriteBuf.length,
    env.flushBytes⟩

/-- The call as the byte-range model records it, which leaves cached GETs out. -/
def Taken.call (t : Taken) : Option Call :=
  match t.route with
  | .echoed _ => some ⟨McbpHeader.pull t.frame, .get, none⟩
  | .served _ => none
  | .dispatched call _ => some call

def Parsed.conn {σ : Type*} (p : Parsed σ) (handed : List Call) : Conn :=
  ⟨p.readBuf, p.closing, p.stageFull, handed ++ p.taken.filterMap Taken.call⟩

/-- What the cache answers a request with, if it holds the document. -/
def cachedAnswer (store : DocStore) (frame : Bytes) : Option Bytes :=
  (store.get (requestKey frame)).map (docResponse (McbpHeader.pull frame))

/-- The request was answered with a document that fits the scratch buffer. -/
def InPlace (store : DocStore) (t : Taken) : Prop :=
  ∃ doc, store.get (requestKey t.frame) = some doc ∧ Copyable doc ∧
    t.answer = some (docResponse (McbpHeader.pull t.frame) doc)

/-- The lengths of a request's header leave room for extras and key. -/
def WellFormed (frame : Bytes) : Prop :=
  (McbpHeader.pull frame).extrasLen.toNat + (McbpHeader.pull frame).keyLen.toNat ≤
    (McbpHeader.pull frame).bodyLen.toNat

instance (frame : Bytes) : Decidable (WellFormed frame) := Nat.decLe ..

section Frame

variable {frame : Bytes} (isFrame : requestFramer.IsFrame frame) (later : Bytes)

include isFrame

theorem frame_length : frame.length = kHeaderSize + (McbpHeader.pull frame).bodyLen.toNat :=
  (requestCut_eq_whole_iff.mp isFrame).2.2.2.1

theorem pull_frame_append : McbpHeader.pull (frame ++ later) = McbpHeader.pull frame :=
  McbpHeader.pull_append (requestCut_eq_whole_iff.mp isFrame).1 later

theorem requestKey_frame_append (fits : WellFormed frame) : requestKey (frame ++ later) = requestKey frame := by
  have length := frame_length isFrame
  unfold WellFormed at fits
  simp only [requestKey, pull_frame_append isFrame later]
  rw [window_append (by omega)]

/-- The generic path finds the key in the body it split off. -/
theorem window_body :
    window ((frame.drop kHeaderSize).take (McbpHeader.pull frame).bodyLen.toNat)
      (McbpHeader.pull frame).extrasLen.toNat (McbpHeader.pull frame).keyLen.toNat = (requestKey frame).2 := by
  have length := frame_length isFrame
  have all : (frame.drop kHeaderSize).take (McbpHeader.pull frame).bodyLen.toNat = frame.drop kHeaderSize := by
    apply List.take_of_length_le
    rw [List.length_drop]
    omega
  rw [all, window, List.drop_drop]
  rfl

theorem bodyOf_frame_append : bodyOf (McbpHeader.pull frame) ((frame ++ later).drop kHeaderSize) =
    bodyOf (McbpHeader.pull frame) (frame.drop kHeaderSize) := by
  have length := frame_length isFrame
  unfold bodyOf
  rw [List.drop_append_of_le_length (by omega), List.take_append_of_le_length (by rw [List.length_drop]; omega)]

end Frame

namespace DocCache

variable {σ : Type*} (cache : DocCache σ)

/-- A GET that a lookup answers is served. -/
theorem serveLoop_head (flushBytes fuel : ℕ) {front : Bytes} {s : σ} {out grown : Bytes} {len : ℕ}
    (answers : cache.Answers front s out grown len) :
    (cache.serveLoop flushBytes (fuel + 1) front s out).taken.head? =
      some ⟨front.take len, .served (grown.drop out.length)⟩ := by
  obtain ⟨long, magic, -, rfl, enough⟩ := requestCut_eq_whole_iff.mp answers.whole
  have known : ¬ ((McbpHeader.pull front).magic ≠ kRequestMagic ∨ (McbpHeader.pull front).opcode ≠ Opcode.get.code) :=
    not_or.mpr ⟨not_ne_iff.mpr magic, not_ne_iff.mpr answers.isGet⟩
  have room : ¬ (front.length < kHeaderSize + (McbpHeader.pull front).bodyLen.toNat ∨
      (McbpHeader.pull front).bodyLen.toNat <
        (McbpHeader.pull front).extrasLen.toNat + (McbpHeader.pull front).keyLen.toNat) :=
    not_or.mpr ⟨Nat.not_lt.mpr enough, Nat.not_lt.mpr answers.fits⟩
  simp only [serveLoop]
  rw [if_neg (Nat.not_lt.mpr long), if_neg known, if_neg room, answers.response]
  rfl

theorem serveLoop_calls (flushBytes fuel : ℕ) (front : Bytes) (s : σ) (out : Bytes) :
    (cache.serveLoop flushBytes fuel front s out).taken.filterMap Taken.call = [] := by
  induction fuel generalizing front s out with
  | zero => rfl
  | succ fuel ih =>
    rcases cache.serveLoop_cases flushBytes fuel front s out with
      ⟨s', stopped, -⟩ | ⟨len, grown, rest, answers, run, rfl | rfl⟩
    · rw [stopped]
      rfl
    · rw [run]
      rfl
    · rw [run]
      exact ih ..

theorem serveCachedGets_calls (flushBytes : ℕ) (s : σ) (out : Bytes) (readBuf : List Bytes) :
    (cache.serveCachedGets flushBytes s out readBuf).taken.filterMap Taken.call = [] := by
  cases readBuf with
  | nil => rfl
  | cons front chain => exact cache.serveLoop_calls ..

theorem serveCachedGets_pos_iff (flushBytes : ℕ) (s : σ) (out : Bytes) (readBuf : List Bytes) :
    0 < ((cache.serveCachedGets flushBytes s out readBuf).taken.map Taken.frame).flatten.length ↔
      (cache.serveCachedGets flushBytes s out readBuf).taken ≠ [] := by
  obtain ⟨areFrames, -⟩ := cache.serveCachedGets_frames flushBytes s out readBuf
  cases taken : (cache.serveCachedGets flushBytes s out readBuf).taken with
  | nil => simp
  | cons first rest =>
    have positive := requestFramer.pos_of_whole (areFrames first (taken ▸ List.mem_cons_self))
    simp only [List.map_cons, List.flatten_cons, List.length_append, ne_eq, reduceCtorEq, not_false_eq_true, iff_true]
    omega

variable {cache} {env : Env σ} {readBuf : List Bytes}

/-- The lookups read a store of documents, and a copy out does not change it. -/
structure Reads (cache : DocCache σ) (view : σ → DocStore) : Prop where
  get : ∀ s key, (cache.get s key).2 = (view s).get key
  getCopy : ∀ s key bufCap, (cache.getCopy s key bufCap).2 = (view s).getCopy key bufCap
  keeps : ∀ s key bufCap, view (cache.getCopy s key bufCap).1 = view s

variable {view : σ → DocStore}

/-- Every GET of a run is given the cache's answer as it was before the run. -/
theorem Reads.serveLoop (reads : cache.Reads view) (flushBytes fuel : ℕ) (front : Bytes) (s : σ) (out : Bytes) :
    view (cache.serveLoop flushBytes fuel front s out).cache = view s ∧
      ∀ t ∈ (cache.serveLoop flushBytes fuel front s out).taken, InPlace (view s) t := by
  induction fuel generalizing front s out with
  | zero => exact ⟨rfl, fun t member => (List.not_mem_nil member).elim⟩
  | succ fuel ih =>
    rcases cache.serveLoop_cases flushBytes fuel front s out with
      ⟨s', stopped, moved⟩ | ⟨len, grown, rest, answers, run, rest_eq⟩
    · rw [stopped]
      refine ⟨?_, fun t member => (List.not_mem_nil member).elim⟩
      rcases moved with rfl | rfl
      · rfl
      · exact reads.keeps ..
    · have later : view rest.cache = view s ∧ ∀ t ∈ rest.taken, InPlace (view s) t := by
        rcases rest_eq with rfl | rfl
        · exact ⟨reads.keeps .., fun t member => (List.not_mem_nil member).elim⟩
        · have tail := ih (front.drop len) (cache.getCopy s (requestKey front) kValueScratch).1 grown
          rwa [reads.keeps] at tail
      rw [run]
      refine ⟨later.1, List.forall_mem_cons.mpr ⟨?_, later.2⟩⟩
      have isFrame := Framer.isFrame_take answers.whole
      have together := List.take_append_drop len front
      have header : McbpHeader.pull (front.take len) = McbpHeader.pull front := by
        conv_rhs => rw [← together, pull_frame_append isFrame]
      have key : requestKey (front.take len) = requestKey front := by
        conv_rhs => rw [← together]
        refine (requestKey_frame_append isFrame _ ?_).symm
        unfold WellFormed
        rw [header]
        exact answers.fits
      have response := answers.response
      rw [reads.getCopy] at response
      obtain ⟨doc, found, copyable, rfl⟩ := (copyAnswer_getCopy_iff _ _).mp response
      refine ⟨doc, key ▸ found, copyable, ?_⟩
      simp only [Taken.answer, List.drop_left, header]

theorem Reads.serveCachedGets (reads : cache.Reads view) (flushBytes : ℕ) (s : σ) (out : Bytes)
    (readBuf : List Bytes) :
    view (cache.serveCachedGets flushBytes s out readBuf).cache = view s ∧
      ∀ t ∈ (cache.serveCachedGets flushBytes s out readBuf).taken, InPlace (view s) t := by
  cases readBuf with
  | nil => exact ⟨rfl, fun t member => (List.not_mem_nil member).elim⟩
  | cons front chain => exact reads.serveLoop ..

/-- The answer of the generic path. -/
def genericAnswer (cache : DocCache σ) (s : σ) (frame : Bytes) : Option Bytes :=
  (cache.handleGet (some s) [] (McbpHeader.pull frame)
    (bodyOf (McbpHeader.pull frame) (frame.drop kHeaderSize))).2

theorem Reads.handleGet (reads : cache.Reads view) (s : σ) (out : Bytes) {frame : Bytes}
    (isFrame : requestFramer.IsFrame frame) :
    ((cache.handleGet (some s) out (McbpHeader.pull frame)
      (bodyOf (McbpHeader.pull frame) (frame.drop kHeaderSize))).2.map (·.drop out.length)) =
      if 0 < (McbpHeader.pull frame).bodyLen.toNat then cachedAnswer (view s) frame else none := by
  unfold bodyOf
  split
  · simp only [DocCache.handleGet, reads.get, window_body isFrame, Option.map_map, cachedAnswer]
    congr 1
    funext doc
    simp only [Function.comp_apply, getAnswer_eq, List.drop_left]
  · rfl

theorem Reads.genericAnswer (reads : cache.Reads view) (s : σ) {frame : Bytes}
    (isFrame : requestFramer.IsFrame frame) : cache.genericAnswer s frame =
      if 0 < (McbpHeader.pull frame).bodyLen.toNat then cachedAnswer (view s) frame else none := by
  have answer := reads.handleGet s [] isFrame
  rwa [List.length_nil, show (fun bytes : Bytes => bytes.drop 0) = id from rfl, Option.map_id] at answer

theorem Reads.dispatch (reads : cache.Reads view) (s : σ) (out : Bytes) {op : Opcode} {frame later : Bytes}
    (isFrame : requestFramer.IsFrame frame) (stream : readBuf.flatten = frame ++ later)
    (known : Opcode.ofCode? (McbpHeader.pull frame).opcode = some op) {t : Taken}
    (member : t ∈ (cache.dispatch (some s) out (McbpHeader.pull frame) op readBuf).taken)
    (isGet : (McbpHeader.pull t.frame).opcode = Opcode.get.code) : t.answer = cache.genericAnswer s t.frame := by
  have whole : (frame ++ later).take (kHeaderSize + (McbpHeader.pull frame).bodyLen.toNat) = frame := by
    rw [← frame_length isFrame, List.take_left]
  simp only [DocCache.dispatch, trimStart_flatten, stream, whole, bodyOf_frame_append isFrame,
    List.mem_singleton] at member
  subst member
  have get : op = .get := by
    rw [isGet, Opcode.ofCode?_code] at known
    exact (Option.some_inj.mp known).symm
  simp only [Taken.answer, if_pos get, reads.handleGet s out isFrame, reads.genericAnswer s isFrame]

/-- A GET is answered in place on the fast path and has the generic answer otherwise, both as the cache
was before the call. -/
theorem Reads.answer (reads : cache.Reads view) {s : σ} (noEcho : env.echoResponseBuf = [])
    (cached : env.cache = some s) {t : Taken} (member : t ∈ (cache.parseAndDispatch env readBuf).taken)
    (isGet : (McbpHeader.pull t.frame).opcode = Opcode.get.code) (isFrame : requestFramer.IsFrame t.frame) :
    InPlace (view s) t ∨ t.answer = cache.genericAnswer s t.frame := by
  cases front : requestFramer.cut readBuf.flatten with
  | more => rw [cache.parseAndDispatch_of_more env front] at member; exact (List.not_mem_nil member).elim
  | bad => rw [cache.parseAndDispatch_of_bad env front] at member; exact (List.not_mem_nil member).elim
  | whole len =>
    obtain ⟨op, known, taken⟩ := cache.parseAndDispatch_of_whole env front
    have first := Framer.isFrame_take front
    have stream := (List.take_append_drop len readBuf.flatten).symm
    rw [stream, pull_frame_append first] at known
    rw [taken] at member
    simp only [takeRequest, noEcho, ne_eq, not_true_eq_false, and_false, if_false, cached] at member
    rw [stream, pull_frame_append first] at member
    split at member
    · exact (List.not_mem_nil member).elim
    split at member
    · next _ _ s' same _ =>
      cases same
      obtain ⟨kept, answers⟩ := reads.serveCachedGets env.flushBytes s env.pendingWriteBuf readBuf
      split at member
      · right
        rw [reads.dispatch _ _ first stream known member isGet, reads.genericAnswer _ isFrame, kept,
          reads.genericAnswer _ isFrame]
      · exact .inl (answers t member)
    · exact .inr (reads.dispatch s _ first stream known member isGet)

/-- A GET at the front of the stream is taken first, wherever its bytes lie. -/
theorem head_parseAndDispatch (cache : DocCache σ) (env : Env σ) {frame later : Bytes}
    (isFrame : requestFramer.IsFrame frame) (isGet : (McbpHeader.pull frame).opcode = Opcode.get.code)
    (stream : readBuf.flatten = frame ++ later) :
    (cache.parseAndDispatch env readBuf).taken.head?.map Taken.frame = some frame := by
  have whole : requestFramer.cut readBuf.flatten = .whole frame.length := by rw [stream, isFrame.cut_append]
  obtain ⟨op, known, parsed⟩ := cache.parseAndDispatch_of_whole env whole
  have takes : Takes readBuf (cache.parseAndDispatch env readBuf) := by
    rw [parsed]
    rcases cache.takeRequest_cases env op whole with ⟨rfl, -⟩ | takes
    · rw [stream, pull_frame_append isFrame, isGet] at known
      cases known
    · exact takes
  obtain ⟨first, rest, taken⟩ := List.exists_cons_of_ne_nil takes.nonempty
  have split := takes.split
  rw [taken, List.map_cons, List.flatten_cons, List.append_assoc, stream] at split
  have same := (takes.areFrames first (taken ▸ List.mem_cons_self)).eq_of_append_eq isFrame split
  rw [taken, List.head?_cons, Option.map_some, same]

/-- A GET contiguous in the front buffer is answered in place if the cache would copy its document out. -/
theorem Reads.served (reads : cache.Reads view) {s : σ} (noEcho : env.echoResponseBuf = [])
    (cached : env.cache = some s) {frame : Bytes} (isFrame : requestFramer.IsFrame frame)
    (isGet : (McbpHeader.pull frame).opcode = Opcode.get.code) (fits : WellFormed frame) {doc : Version}
    (found : (view s).get (requestKey frame) = some doc) (copyable : Copyable doc) :
    ∃ t ∈ (cache.parseAndDispatch env [frame]).taken, t.frame = frame ∧ t.answer ≠ none := by
  have response := (copyAnswer_getCopy_iff env.pendingWriteBuf (McbpHeader.pull frame)).mpr
    ⟨doc, found, copyable, rfl⟩
  rw [← reads.getCopy] at response
  have positive : frame.length - 1 + 1 = frame.length := Nat.sub_add_cancel (requestFramer.pos_of_whole isFrame)
  have head := cache.serveLoop_head env.flushBytes (frame.length - 1) ⟨isFrame, isGet, fits, response⟩
  rw [positive, List.take_length] at head
  have whole : requestFramer.cut [frame].flatten = .whole frame.length := by
    rw [List.flatten_singleton, isFrame]
  obtain ⟨op, known, parsed⟩ := cache.parseAndDispatch_of_whole env whole
  rw [List.flatten_singleton, isGet, Opcode.ofCode?_code, Option.some_inj] at known
  have some : (cache.serveLoop env.flushBytes frame.length frame s env.pendingWriteBuf).taken ≠ [] := by
    intro none
    rw [none] at head
    cases head
  have taken : (cache.parseAndDispatch env [frame]).taken =
      (cache.serveLoop env.flushBytes frame.length frame s env.pendingWriteBuf).taken := by
    rw [parsed, ← known]
    simp only [takeRequest, noEcho, cached, if_false, reduceCtorEq, false_and, ne_eq, not_true_eq_false, and_false]
    exact congrArg Parsed.taken (if_neg some)
  rw [← taken] at head
  exact ⟨_, List.mem_of_head? head, rfl, Option.some_ne_none _⟩

/-- The bytes a run takes, as the byte-range model counts them. -/
theorem Reads.serveLoop_bytes (reads : cache.Reads view) (flushBytes fuel : ℕ) (front : Bytes) (s : σ) (out : Bytes) :
    Connection.serveLoop (lengths (view s)) flushBytes fuel front out.length =
      ((cache.serveLoop flushBytes fuel front s out).taken.map Taken.frame).flatten.length := by
  induction fuel generalizing front s out with
  | zero => rfl
  | succ fuel ih =>
    simp only [Connection.serveLoop, DocCache.serveLoop]
    split
    · rfl
    split
    · rfl
    split
    · rfl
    next room =>
    have inside : (front.take (kHeaderSize + (McbpHeader.pull front).bodyLen.toNat)).length =
        kHeaderSize + (McbpHeader.pull front).bodyLen.toNat :=
      List.length_take_of_le (Nat.not_lt.mp (not_or.mp room).1)
    have looked : lengths (view s) (McbpHeader.pull front).specific
        (window front (kHeaderSize + (McbpHeader.pull front).extrasLen.toNat) (McbpHeader.pull front).keyLen.toNat) =
        copyLength (cache.getCopy s (requestKey front) kValueScratch).2 := by
      rw [reads.getCopy]
      rfl
    have later := ih (front.drop (kHeaderSize + (McbpHeader.pull front).bodyLen.toNat))
      (cache.getCopy s (requestKey front) kValueScratch).1
    rw [reads.keeps] at later
    have grows : ∀ (grown : Bytes) (route : Route),
        (if flushBytes ≤ grown.length then kHeaderSize + (McbpHeader.pull front).bodyLen.toNat
          else kHeaderSize + (McbpHeader.pull front).bodyLen.toNat + Connection.serveLoop (lengths (view s)) flushBytes
            fuel (front.drop (kHeaderSize + (McbpHeader.pull front).bodyLen.toNat)) grown.length) =
        (List.map Taken.frame (⟨front.take (kHeaderSize + (McbpHeader.pull front).bodyLen.toNat), route⟩ ::
          (if flushBytes ≤ grown.length then
            ⟨[], (cache.getCopy s (requestKey front) kValueScratch).1, grown⟩
          else cache.serveLoop flushBytes fuel (front.drop (kHeaderSize + (McbpHeader.pull front).bodyLen.toNat))
            (cache.getCopy s (requestKey front) kValueScratch).1 grown).taken)).flatten.length := by
      intro grown route
      rw [List.map_cons, List.flatten_cons, List.length_append, inside]
      split
      · rfl
      · rw [later grown]
    rw [looked]
    cases (cache.getCopy s (requestKey front) kValueScratch).2 with
    | miss | tooLarge => rfl
    | hit doc =>
      have size := appendGetResponse_eq out (McbpHeader.pull front).opaqueWord (.ofNat doc.seqno) doc.content.flags
        doc.content.value doc.content.datatype
      have size := congrArg List.length size
      rw [List.length_append, getResponse_length] at size
      simp only [copyLength, copyAnswer, ← size]
      exact grows _ _
    | tombstone doc =>
      have size := appendEmptyResponse_eq out (McbpHeader.pull front).opcode .keyNotFound
        (McbpHeader.pull front).opaqueWord
      have size := congrArg List.length size
      rw [List.length_append, emptyResponse_length] at size
      simp only [copyLength, copyAnswer, ← size]
      exact grows _ _

theorem Reads.serveCachedGets_bytes (reads : cache.Reads view) (env : Env σ) (readBuf : List Bytes) (s : σ) :
    Connection.serveCachedGets (env.server view) (lengths (view s)) readBuf =
      ((cache.serveCachedGets env.flushBytes s env.pendingWriteBuf readBuf).taken.map Taken.frame).flatten.length := by
  cases readBuf with
  | nil => rfl
  | cons front chain => exact reads.serveLoop_bytes ..

/-- The byte-range model of the parser is this one, seen through the lengths of the documents. -/
theorem Reads.parseAndDispatch_conn (reads : cache.Reads view) (handed : List Call) :
    Connection.parseAndDispatch (env.server view) ⟨readBuf, false, false, handed⟩ =
      (cache.parseAndDispatch env readBuf).conn handed := by
  obtain ⟨echoBuf, token, cached, out, flush⟩ := env
  simp only [Connection.parseAndDispatch, DocCache.parseAndDispatch]
  split
  · simp [Parsed.conn, wait]
  next long =>
  split
  · simp [Parsed.conn, wait]
  next magic =>
  rcases known : Opcode.ofCode? (McbpHeader.pull readBuf.flatten).opcode with _ | op
  · simp [Parsed.conn, wait]
  dsimp only
  split
  · simp [Parsed.conn, wait]
  next enough =>
  rw [chainLength_eq, Nat.not_lt] at long enough
  have whole : requestFramer.cut readBuf.flatten = .whole _ := requestCut_eq_whole_iff.mpr
    ⟨long, not_ne_iff.mp magic, by rw [known]; exact Option.some_ne_none _, rfl, enough⟩
  have header := pull_frame_append (Framer.isFrame_take whole)
    (readBuf.flatten.drop (kHeaderSize + (McbpHeader.pull readBuf.flatten).bodyLen.toNat))
  rw [List.take_append_drop] at header
  simp only [takeRequest, Env.server, decide_eq_true_eq]
  split
  · simp [Parsed.conn, wait]
  split
  · next echo =>
    simp only [Parsed.conn, wait, List.filterMap_cons, Taken.call, List.filterMap_nil, ← header, echo.1]
  cases cached with
  | none =>
    simp only [Option.map_none, Option.getD_none, Nat.lt_irrefl, and_false, if_false]
    cases op <;> rfl
  | some s =>
    rcases eq_or_ne op .get with rfl | other
    · have bytes := reads.serveCachedGets_bytes ⟨echoBuf, token, some s, out, flush⟩ readBuf s
      simp only [Env.server, Option.map_some] at bytes
      simp only [Option.map_some, Option.getD_some, bytes, true_and]
      have some_iff := cache.serveCachedGets_pos_iff flush s out readBuf
      split
      · next positive =>
        rw [if_neg (some_iff.mp positive)]
        simp only [Parsed.conn, cache.serveCachedGets_calls, List.append_nil]
      · next zero =>
        rw [if_pos (not_not.mp (mt some_iff.mpr zero))]
        rfl
    · simp only [other, false_and, if_false]
      cases op <;> first | exact absurd rfl other | rfl

end DocCache

section S3Fifo

variable {P : Type*} [DecidableEq P] (hash : DocKey → UInt64) (shardMask : UInt64)

/-- The lookups of the S3-FIFO cache in memory. -/
def s3fifo : DocCache (FlatCache P) where
  get c key :=
    let found := (c.shard hash shardMask key).get hash key
    (c.setShard hash shardMask key found.1, found.2)
  getCopy c key bufCap :=
    let copied := (c.shard hash shardMask key).getCopy hash key bufCap
    (c.setShard hash shardMask key copied.1, copied.2)

theorem s3fifo_reads : (s3fifo hash shardMask : DocCache (FlatCache P)).Reads (FlatCache.store hash shardMask) where
  get c key := by
    simp only [s3fifo, FlatShard.get, DocStore.get, FlatCache.store, FlatShard.docs]
    cases (c.shard hash shardMask key).lookup hash key <;> rfl
  getCopy c key bufCap := by
    simp only [s3fifo, FlatShard.getCopy_eq]
    rfl
  keeps c key bufCap := by
    simp only [s3fifo, FlatShard.getCopy_eq]
    exact FlatCache.store_setShard (FlatShard.docs_get _ key)

/-- A well-formed GET has one answer, on whichever path its bytes take it, exactly if it has a body or the
cache would not copy out a document with the empty key: without a body the generic path does not ask the
cache. -/
theorem cached_get_paths_agree_iff (c : FlatCache P) {frame : Bytes} (isFrame : requestFramer.IsFrame frame)
    (isGet : (McbpHeader.pull frame).opcode = Opcode.get.code) (fits : WellFormed frame) :
    (∀ env readBuf, env.echoResponseBuf = [] → env.cache = some c →
      (∀ later, readBuf.flatten = frame ++ later →
        ((s3fifo hash shardMask).parseAndDispatch env readBuf).taken.head?.map Taken.frame = some frame) ∧
      ∀ t ∈ ((s3fifo hash shardMask).parseAndDispatch env readBuf).taken, t.frame = frame →
        t.answer = (s3fifo hash shardMask).genericAnswer c frame) ↔
    0 < (McbpHeader.pull frame).bodyLen.toNat ∨
      ∀ doc, (c.store hash shardMask).get ((McbpHeader.pull frame).specific, []) = some doc → ¬ Copyable doc := by
  have reads := s3fifo_reads (P := P) hash shardMask
  have generic := reads.genericAnswer c isFrame
  have emptyKey : (McbpHeader.pull frame).bodyLen.toNat = 0 →
      requestKey frame = ((McbpHeader.pull frame).specific, []) := by
    intro zero
    unfold WellFormed at fits
    simp only [requestKey, window, show (McbpHeader.pull frame).keyLen.toNat = 0 by omega, List.take_zero]
  constructor
  · intro agree
    refine Nat.eq_zero_or_pos _ |>.symm.imp_right fun zero doc found copyable => ?_
    rw [← emptyKey zero] at found
    have ask : (⟨[], true, some c, [], 0⟩ : Env (FlatCache P)).echoResponseBuf = [] := rfl
    obtain ⟨t, member, same, answered⟩ := reads.served ask rfl isFrame isGet fits found copyable
    apply answered
    rw [(agree _ _ ask rfl).2 t member same, generic, if_neg (Nat.not_lt.mpr zero.le)]
  · intro exempt env readBuf noEcho cached
    refine ⟨fun later stream => DocCache.head_parseAndDispatch _ env isFrame isGet stream, ?_⟩
    rintro t member rfl
    rcases reads.answer noEcho cached member isGet isFrame with ⟨doc, found, copyable, answer⟩ | answer
    · rcases exempt with positive | absent
      · rw [answer, generic, if_pos positive, cachedAnswer, found, Option.map_some]
      · rcases Nat.eq_zero_or_pos (McbpHeader.pull t.frame).bodyLen.toNat with zero | positive
        · rw [emptyKey zero] at found
          exact (absent doc found copyable).elim
        · rw [answer, generic, if_pos positive, cachedAnswer, found, Option.map_some]
    · exact answer

end S3Fifo

/-- The header of a GET in vbucket 1 with the given lengths. -/
def getRequest (keyLen bodyLen : UInt8) : Bytes :=
  [0x80, 0x00, 0, keyLen, 0, 0, 0, 1, 0, 0, 0, bodyLen] ++ List.replicate 12 0

/-- A cache of one shard that holds the value 5 under a key. -/
def holding (key : Bytes) : FlatCache ℕ :=
  ((FlatCache.empty 0 1000).apply (fun _ => 3) 0 (.put (1, key) ⟨[5], 0, 0, 0, false⟩ 10)).1

/-- A GET of a one-byte key, with its header in two buffers. -/
theorem cached_get_paths_agree_body :
    ∃ t ∈ ((s3fifo (fun _ => 3) 0).parseAndDispatch ⟨[], true, some (holding [7]), [], 4096⟩
        [(getRequest 1 1).take 12, (getRequest 1 1).drop 12 ++ [7]]).taken,
      t.frame = getRequest 1 1 ++ [7] ∧
        t.answer = (s3fifo (fun _ => 3) 0).genericAnswer (holding [7]) (getRequest 1 1 ++ [7]) := by
  have agree := (cached_get_paths_agree_iff (fun _ => 3) 0 (holding [7])
    (show requestFramer.IsFrame (getRequest 1 1 ++ [7]) by decide +kernel) (by decide +kernel)
    (by decide +kernel)).mpr (.inl (by decide +kernel))
  obtain ⟨first, answers⟩ := agree ⟨[], true, some (holding [7]), [], 4096⟩
    [(getRequest 1 1).take 12, (getRequest 1 1).drop 12 ++ [7]] rfl rfl
  obtain ⟨t, head, frame⟩ := Option.map_eq_some_iff.mp (first [] (by decide +kernel))
  have member := List.mem_of_mem_head? head
  exact ⟨t, member, frame, answers t member frame⟩

/-- A GET of the empty key, which the cache holds: answered with the document where its header is
contiguous, left to the readers where two buffers share it. -/
theorem empty_key_get_bypasses_cache :
    ((s3fifo (fun _ => 3) 0).parseAndDispatch ⟨[], true, some (holding []), [], 4096⟩ [getRequest 0 0]).taken.map
        Taken.answer = [some (getResponse 0 0 0 [5] 0)] ∧
      ((s3fifo (fun _ => 3) 0).parseAndDispatch ⟨[], true, some (holding []), [], 4096⟩
        [(getRequest 0 0).take 12, (getRequest 0 0).drop 12]).taken.map Taken.answer = [none] ∧
      WellFormed (getRequest 0 0) := by
  decide +kernel

end FluxKV.Connection
