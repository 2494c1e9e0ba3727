import FluxKV.Connection.Send.Reply
import FluxKV.Protocol.Build

/-! # The three encoders

A GET is answered from the loop, which appends its response to the coalesced buffer, or from a reader, which
fills a header in a thread-local array and points the kernel at it and at the value. A client cannot tell
which of them served it.
-/

namespace FluxKV.Connection.Send

open Protocol BigEndian

/-- What the encoders read of a GET `Request` that is complete. -/
structure CompletedGet where
  opcode : UInt8
  opaqueWord : UInt32
  /-- `resultStatus.IsOK()` -/
  resultOK : Bool
  resultSeqno : UInt64
  resultFlags : UInt32
  resultDatatype : UInt8
  responseBuf : Bytes
deriving DecidableEq, Repr

/-- An element of `hdrs`, which keeps what earlier batches left in it. -/
abbrev HdrBuf := { buf : Bytes // buf.length = kHeaderSize + 4 }

namespace CompletedGet

/-- What `sendGetResponse` leaves in `pendingWriteBuf_` of a connection that is not closing. -/
def sendGetResponse (pendingWriteBuf : Bytes) (req : CompletedGet) : Bytes :=
  if !req.resultOK then appendEmptyResponse pendingWriteBuf req.opcode .keyNotFound req.opaqueWord
  else
    let val := if req.responseBuf.isEmpty then .null req.responseBuf.length else .data req.responseBuf
    appendGetBlocks pendingWriteBuf req.opaqueWord req.resultSeqno req.resultFlags val req.resultDatatype

/-- The header `h` of `writeDirectLocked`; the fields it does not set are zero. -/
def directHeader (r : CompletedGet) : McbpHeader :=
  if r.resultOK then
    { magic := kResponseMagic
      opcode := Opcode.get.code
      keyLen := 0
      extrasLen := 4
      datatype := r.resultDatatype
      specific := McbpStatus.success.code
      bodyLen := .ofNat (4 + r.responseBuf.length)
      opaqueWord := r.opaqueWord
      cas := r.resultSeqno }
  else
    { magic := kResponseMagic
      opcode := r.opcode
      keyLen := 0
      extrasLen := 0
      datatype := 0
      specific := McbpStatus.keyNotFound.code
      bodyLen := 0
      opaqueWord := r.opaqueWord
      cas := 0 }

/-- The iovecs that `writeDirectLocked` pushes for one request, with the bytes behind them. -/
def directIov (hdr : HdrBuf) (r : CompletedGet) : List Bytes :=
  let buf := memcpy hdr 0 r.directHeader.push
  let buf := if r.resultOK then memcpy buf kHeaderSize (beBytes 4 r.resultFlags.toNat) else buf
  let len := if r.resultOK then kHeaderSize + 4 else kHeaderSize
  buf.take len :: if r.resultOK && !r.responseBuf.isEmpty then [r.responseBuf] else []

/-- The iovecs of a batch; request `i` has its header in `hdrs[i]`. -/
def directIovs (hdrs : ℕ → HdrBuf) : ℕ → List CompletedGet → List Bytes
  | _, [] => []
  | i, r :: reqs => r.directIov (hdrs i) ++ directIovs hdrs (i + 1) reqs

/-- The request as the send paths see it. -/
def reply (r : CompletedGet) (id : ℕ) : GetReply where
  id := id
  opcode := r.opcode
  opaqueWord := r.opaqueWord
  found := if r.resultOK then some ⟨r.resultSeqno, r.resultFlags, r.resultDatatype, r.responseBuf⟩ else none

theorem directHeader_eq (r : CompletedGet) (id : ℕ) : r.directHeader = (r.reply id).header := by
  obtain ⟨opcode, opaqueWord, ok, seqno, flags, datatype, value⟩ := r
  cases ok <;> rfl

/-- The array's old bytes are either copied over or beyond the iovec's length. -/
theorem directIov_eq (hdr : HdrBuf) (r : CompletedGet) (id : ℕ) : r.directIov hdr = (r.reply id).iov := by
  obtain ⟨buf, length⟩ := hdr
  have start := memcpy_append [] buf r.directHeader.push
  rw [List.nil_append, List.nil_append, List.length_nil, McbpHeader.push_length] at start
  have size : r.directHeader.push.length = kHeaderSize := McbpHeader.push_length _
  unfold directIov
  dsimp only
  rw [start]
  cases ok : r.resultOK with
  | false =>
    simp only [Bool.false_eq_true, if_false, Bool.false_and, GetReply.iov, reply, ok]
    rw [List.take_left' size, directHeader_eq r id]
    simp only [reply, ok, Bool.false_eq_true, if_false]
  | true =>
    have flags := memcpy_append r.directHeader.push (buf.drop kHeaderSize) (beBytes 4 r.resultFlags.toNat)
    rw [size] at flags
    simp only [if_true, Bool.true_and, GetReply.iov, reply, ok, flags]
    rw [List.take_left' (by rw [List.length_append, size, beBytes_length]), directHeader_eq r id]
    simp only [reply, ok, if_true]
    cases r.responseBuf with
    | nil | cons => rfl

theorem sendGetResponse_eq (out : Bytes) (r : CompletedGet) (id : ℕ) :
    sendGetResponse out r = out ++ (r.reply id).frame := by
  have value : (if r.responseBuf.isEmpty then Block.null r.responseBuf.length
      else .data r.responseBuf).contents = r.responseBuf := by
    cases r.responseBuf with
    | nil | cons => rfl
  unfold sendGetResponse GetReply.frame reply
  cases r.resultOK with
  | false => exact appendEmptyResponse_eq ..
  | true =>
    dsimp only [Bool.not_true, Bool.false_eq_true, if_false, if_true]
    rw [appendGetBlocks_eq, value]
    exact appendGetResponse_eq ..

/-- The iovecs of a batch hold what the loop would have appended for it. -/
theorem directIovs_flatten (hdrs : ℕ → HdrBuf) (reqs : List CompletedGet) : ∀ (i : ℕ) (out : Bytes),
    out ++ (directIovs hdrs i reqs).flatten = reqs.foldl sendGetResponse out := by
  induction reqs with
  | nil =>
    intro i out
    exact List.append_nil out
  | cons r rest ih =>
    intro i out
    rw [directIovs, List.flatten_append, List.foldl_cons, ← ih (i + 1), sendGetResponse_eq out r i,
      directIov_eq (hdrs i) r i, GetReply.iov_flatten, List.append_assoc]

theorem pull_frame (r : CompletedGet) (id : ℕ) : McbpHeader.pull (r.reply id).frame = r.directHeader := by
  rw [← GetReply.iov_flatten, directHeader_eq r id, GetReply.iov]
  cases (r.reply id).found with
  | none =>
    rw [List.flatten_singleton, ← List.append_nil (McbpHeader.push _)]
    exact McbpHeader.pull_push ..
  | some doc =>
    rw [List.flatten_cons, List.append_assoc]
    exact McbpHeader.pull_push ..

/-- A GET's response, read back by the header layout. -/
theorem directHeader_fields (r : CompletedGet) (fits : 4 + r.responseBuf.length < 2 ^ 32) :
    r.directHeader.specific = (if r.resultOK then McbpStatus.success else .keyNotFound).code ∧
      r.directHeader.opaqueWord = r.opaqueWord ∧ r.directHeader.extrasLen.toNat = (if r.resultOK then 4 else 0) ∧
      r.directHeader.keyLen.toNat = 0 ∧
      r.directHeader.bodyLen.toNat = if r.resultOK then 4 + r.responseBuf.length else 0 := by
  unfold directHeader
  cases r.resultOK with
  | false => exact ⟨rfl, rfl, rfl, rfl, rfl⟩
  | true => exact ⟨rfl, rfl, rfl, rfl, UInt32.toNat_ofNat_of_lt' fits⟩

end CompletedGet

open CompletedGet

/-- Whatever batch of GETs a reader writes directly has the bytes the loop would have appended, and a
response that is built apart has those that would have been appended for it. Either frame reads back to its
status, its opaque and its lengths. -/
theorem response_encoders_agree :
    (∀ (hdrs : ℕ → HdrBuf) (out : Bytes) (reqs : List CompletedGet),
        out ++ (directIovs hdrs 0 reqs).flatten = reqs.foldl sendGetResponse out) ∧
      (∀ (hdr : HdrBuf) (r : CompletedGet), 4 + r.responseBuf.length < 2 ^ 32 →
        ∀ frame ∈ [(r.directIov hdr).flatten, sendGetResponse [] r],
          (McbpHeader.pull frame).specific = (if r.resultOK then McbpStatus.success else .keyNotFound).code ∧
          (McbpHeader.pull frame).opaqueWord = r.opaqueWord ∧
          (McbpHeader.pull frame).extrasLen.toNat = (if r.resultOK then 4 else 0) ∧
          (McbpHeader.pull frame).keyLen.toNat = 0 ∧
          (McbpHeader.pull frame).bodyLen.toNat = if r.resultOK then 4 + r.responseBuf.length else 0) ∧
      ∀ (fresh : ℕ → UInt8) (opcode : UInt8) (status : McbpStatus) (opaqueWord : UInt32) (cas : UInt64)
        (extras key value : Block), extras.NonNull → key.NonNull → value.NonNull →
        (∀ out, appendBlocks out opcode status opaqueWord cas extras key value =
          out ++ buildResponse fresh opcode status opaqueWord cas extras key value) ∧
        (extras.len < 2 ^ 8 → key.len < 2 ^ 16 → extras.len + key.len + value.len < 2 ^ 32 →
          ∀ frame ∈ [buildResponse fresh opcode status opaqueWord cas extras key value,
              appendBlocks [] opcode status opaqueWord cas extras key value],
            (McbpHeader.pull frame).specific = status.code ∧ (McbpHeader.pull frame).opaqueWord = opaqueWord ∧
            (McbpHeader.pull frame).extrasLen.toNat = extras.len ∧ (McbpHeader.pull frame).keyLen.toNat = key.len ∧
            (McbpHeader.pull frame).bodyLen.toNat = extras.len + key.len + value.len) := by
  refine ⟨fun hdrs out reqs => directIovs_flatten hdrs reqs 0 out, ?_, ?_⟩
  · intro hdr r fits
    have direct : (r.directIov hdr).flatten = (r.reply 0).frame := by
      rw [directIov_eq hdr r 0, GetReply.iov_flatten]
    have appended : sendGetResponse [] r = (r.reply 0).frame := sendGetResponse_eq [] r 0
    simp only [List.forall_mem_cons, direct, appended, pull_frame]
    exact ⟨r.directHeader_fields fits, r.directHeader_fields fits, by simp⟩
  · intro fresh opcode status opaqueWord cas extras key value nonNullExtras nonNullKey nonNullValue
    have built := buildResponse_eq fresh opcode status opaqueWord cas nonNullExtras nonNullKey nonNullValue
    refine ⟨fun out => ?_, fun extrasFit keyFits bodyFits => ?_⟩
    · rw [built, appendBlocks_eq]
      simp only [appendResponse, List.nil_append, List.append_assoc]
    · have read := pull_blocksHeader opcode status opaqueWord cas extrasFit keyFits bodyFits
        (extras.contents ++ key.contents ++ value.contents)
      rw [blocksHeader_eq, ← List.append_assoc, ← List.append_assoc] at read
      rw [built, appendBlocks_eq]
      simp only [List.forall_mem_cons]
      exact ⟨read, read, by simp⟩

/-- A batch with a document and a miss, through arrays that hold old bytes, and a response with no key. -/
theorem response_encoders_agree_batch :
    [1] ++ (directIovs (fun _ => ⟨List.replicate 28 7, rfl⟩) 0
          [⟨0, 9, true, 5, 1, 2, [65]⟩, ⟨0, 10, false, 0, 0, 0, []⟩]).flatten =
        [⟨0, 9, true, 5, 1, 2, [65]⟩, ⟨0, 10, false, 0, 0, 0, []⟩].foldl sendGetResponse [1] ∧
      appendBlocks [] 0 .success 9 5 (.data [0, 0, 0, 1]) (.null 0) (.data [65]) =
        buildResponse (fun _ => 7) 0 .success 9 5 (.data [0, 0, 0, 1]) (.null 0) (.data [65]) ∧
      (McbpHeader.pull (buildResponse (fun _ => 7) 0 .success 9 5 (.data [0, 0, 0, 1]) (.null 0)
        (.data [65]))).bodyLen.toNat = 5 := by
  obtain ⟨same, frame⟩ := response_encoders_agree.2.2 (fun _ => 7) 0 .success 9 5 (.data [0, 0, 0, 1]) (.null 0)
    (.data [65]) trivial rfl trivial
  refine ⟨response_encoders_agree.1 _ [1] _, same [], ?_⟩
  exact (frame (by decide) (by decide) (by decide) _ (List.mem_cons_self ..)).2.2.2.2

end FluxKV.Connection.Send
