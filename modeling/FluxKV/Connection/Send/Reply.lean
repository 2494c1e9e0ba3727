import FluxKV.Protocol.Response

/-! # Responses on the send paths

A response reaches the socket through the loop's coalesced buffer, as a chain of its own, or from a reader
thread that hands the kernel a list of pieces. A write the kernel takes in part leaves the rest of the pieces
to be spilled.
-/

namespace FluxKV.Connection.Send

open Protocol BigEndian Engine

/-- What a reader found. -/
structure Found where
  cas : UInt64
  flags : UInt32
  datatype : UInt8
  value : Bytes
deriving DecidableEq, Repr

/-- A GET that a reader has finished. -/
structure GetReply where
  id : ℕ
  opcode : UInt8
  opaqueWord : UInt32
  found : Option Found
deriving DecidableEq, Repr

namespace GetReply

/-- The header that `writeDirectLocked` fills in. -/
def header (r : GetReply) : McbpHeader :=
  match r.found with
  | some doc =>
    { magic := kResponseMagic
      opcode := Opcode.get.code
      keyLen := 0
      extrasLen := 4
      datatype := doc.datatype
      specific := McbpStatus.success.code
      bodyLen := .ofNat (4 + doc.value.length)
      opaqueWord := r.opaqueWord
      cas := doc.cas }
  | none =>
    { magic := kResponseMagic
      opcode := r.opcode
      keyLen := 0
      extrasLen := 0
      datatype := 0
      specific := McbpStatus.keyNotFound.code
      bodyLen := 0
      opaqueWord := r.opaqueWord
      cas := 0 }

/-- The pieces of a response: the header with the flags, and the value if there is one. -/
def iov (r : GetReply) : List Bytes :=
  match r.found with
  | some doc => (r.header.push ++ beBytes 4 doc.flags.toNat) :: if doc.value = [] then [] else [doc.value]
  | none => [r.header.push]

/-- The bytes that `appendGetResponse` or `appendEmptyResponse` would put in the loop's buffer. -/
def frame (r : GetReply) : Bytes :=
  match r.found with
  | some doc => getResponse r.opaqueWord doc.cas doc.flags doc.value doc.datatype
  | none => emptyResponse r.opcode .keyNotFound r.opaqueWord

theorem iov_flatten (r : GetReply) : r.iov.flatten = r.frame := by
  obtain ⟨id, opcode, opaqueWord, found⟩ := r
  cases found with
  | none => rfl
  | some doc =>
    have pieces : (if doc.value = [] then [] else [doc.value]).flatten = doc.value := by
      split
      · next empty => rw [empty, List.flatten_nil]
      · exact List.flatten_singleton
    simp only [iov, List.flatten_cons, pieces]
    rfl

end GetReply

/-- A response that is handed to the connection: from a reader or a cache, of a write, or built by a
bootstrap handler. -/
inductive Reply where
  | get (r : GetReply)
  | wrote (id : ℕ) (opcode : UInt8) (ok : Bool) (opaqueWord : UInt32) (cas : UInt64)
  | built (id : ℕ) (bytes : Bytes)
deriving DecidableEq, Repr

def Reply.frame : Reply → Bytes
  | get r => r.frame
  | wrote _ opcode ok opaqueWord cas =>
    appendResponse [] opcode (if ok then .success else .internalError) opaqueWord cas [] [] []
  | built _ bytes => bytes

/-- The bytes of some responses one after the other. -/
def framesOf (replies : List Reply) : Bytes := replies.flatMap Reply.frame

@[simp] theorem framesOf_append (first second : List Reply) :
    framesOf (first ++ second) = framesOf first ++ framesOf second := List.flatMap_append

@[simp] theorem framesOf_singleton (r : Reply) : framesOf [r] = r.frame := List.flatMap_singleton ..

/-- All pieces of a chunk of responses. -/
def iovOf (reqs : List GetReply) : List Bytes := reqs.flatMap GetReply.iov

theorem iovOf_flatten (reqs : List GetReply) : (iovOf reqs).flatten = framesOf (reqs.map Reply.get) := by
  induction reqs with
  | nil => rfl
  | cons r rest ih =>
    simp only [iovOf, framesOf, List.flatMap_cons, List.flatten_append, List.map_cons, GetReply.iov_flatten] at ih ⊢
    rw [ih]
    rfl

/-- What is left of the pieces after a write took `skip` bytes. -/
def unsent : List Bytes → ℕ → Bytes
  | [], _ => []
  | v :: rest, skip => if v.length ≤ skip then unsent rest (skip - v.length) else v.drop skip ++ unsent rest 0

theorem unsent_eq_drop (iov : List Bytes) (skip : ℕ) : unsent iov skip = iov.flatten.drop skip := by
  induction iov generalizing skip with
  | nil => simp [unsent]
  | cons v rest ih =>
    unfold unsent
    split
    · next short => rw [ih, List.flatten_cons, List.drop_append, List.drop_eq_nil_of_le short, List.nil_append]
    · next long =>
      rw [ih, List.drop_zero, List.flatten_cons, List.drop_append_of_le_length (Nat.le_of_not_le long)]

end FluxKV.Connection.Send
