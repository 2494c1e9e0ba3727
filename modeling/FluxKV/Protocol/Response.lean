import FluxKV.Engine.Request

/-! # Response frames

Handlers append their responses to the connection's coalesced buffer: a header in network order, then
extras, key and value. A GET's response carries the document's flags as its extras, and its datatype
is written over the header's after the fact. A request parsed back from a response's bytes would find
the header that was put there, so a response announces its own length.
-/

namespace FluxKV.Protocol

open BigEndian Engine

def kResponseMagic : UInt8 := 0x81

/-- `enum class McbpStatus`. -/
inductive McbpStatus where
  | success
  | keyNotFound
  | keyExists
  | notMyVbucket
  | authError
  | authContinue
  | unknownCommand
  | internalError
  | tmpFail
deriving DecidableEq, Repr

def McbpStatus.code : McbpStatus → UInt16
  | success => 0x0000
  | keyNotFound => 0x0001
  | keyExists => 0x0002
  | notMyVbucket => 0x0007
  | authError => 0x0020
  | authContinue => 0x0021
  | unknownCommand => 0x0081
  | internalError => 0x0084
  | tmpFail => 0x0086

/-- The packed header as `hton` leaves it. The opaque keeps the order it was loaded in. -/
def McbpHeader.push (hdr : McbpHeader) : Bytes :=
  [hdr.magic, hdr.opcode] ++ beBytes 2 hdr.keyLen.toNat ++ [hdr.extrasLen, hdr.datatype] ++
    beBytes 2 hdr.specific.toNat ++ beBytes 4 hdr.bodyLen.toNat ++ (beBytes 4 hdr.opaqueWord.toNat).reverse ++
    beBytes 8 hdr.cas.toNat

/-- The header of a response. The length fields keep the low bits of the lengths. -/
def responseHeader (opcode : UInt8) (status : McbpStatus) (opaqueWord : UInt32) (cas : UInt64)
    (extras key value : Bytes) : McbpHeader where
  magic := kResponseMagic
  opcode := opcode
  keyLen := .ofNat key.length
  extrasLen := .ofNat extras.length
  datatype := 0
  specific := status.code
  bodyLen := .ofNat (extras.length + key.length + value.length)
  opaqueWord := opaqueWord
  cas := cas

def appendResponse (out : Bytes) (opcode : UInt8) (status : McbpStatus) (opaqueWord : UInt32) (cas : UInt64)
    (extras key value : Bytes) : Bytes :=
  out ++ (responseHeader opcode status opaqueWord cas extras key value).push ++ extras ++ key ++ value

def appendEmptyResponse (out : Bytes) (opcode : UInt8) (status : McbpStatus) (opaqueWord : UInt32) : Bytes :=
  appendResponse out opcode status opaqueWord 0 [] [] []

def appendGetResponse (out : Bytes) (opaqueWord : UInt32) (cas : UInt64) (flags : UInt32) (value : Bytes)
    (datatype : UInt8) : Bytes :=
  (appendResponse out Opcode.get.code .success opaqueWord cas (beBytes 4 flags.toNat) [] value).set
    (out.length + 5) datatype

/-- The bytes of an empty response. -/
def emptyResponse (opcode : UInt8) (status : McbpStatus) (opaqueWord : UInt32) : Bytes :=
  (responseHeader opcode status opaqueWord 0 [] [] []).push

/-- The header and the flags of a document's GET response. -/
def getHeader (opaqueWord : UInt32) (cas : UInt64) (flags : UInt32) (value : Bytes) (datatype : UInt8) : Bytes :=
  { responseHeader Opcode.get.code .success opaqueWord cas (beBytes 4 flags.toNat) [] value with
    datatype := datatype }.push ++ beBytes 4 flags.toNat

def getResponse (opaqueWord : UInt32) (cas : UInt64) (flags : UInt32) (value : Bytes) (datatype : UInt8) : Bytes :=
  getHeader opaqueWord cas flags value datatype ++ value

@[simp] theorem McbpHeader.push_length (hdr : McbpHeader) : hdr.push.length = kHeaderSize := by
  simp [McbpHeader.push, kHeaderSize]

/-- A header is read back as it was written. -/
theorem McbpHeader.pull_push (hdr : McbpHeader) (rest : Bytes) : McbpHeader.pull (hdr.push ++ rest) = hdr := by
  obtain ⟨magic, opcode, keyLen, extrasLen, datatype, specific, bodyLen, opaqueWord, cas⟩ := hdr
  have words : ∀ width n, n < 256 ^ width → beNat (beBytes width n) = n := fun width n small => by
    rw [beNat_beBytes, Nat.mod_eq_of_lt small]
  simp only [McbpHeader.pull, McbpHeader.mk.injEq]
  refine ⟨rfl, rfl, ?_, rfl, rfl, ?_, ?_, ?_, ?_⟩
  · exact (congrArg UInt16.ofNat (words 2 _ keyLen.toNat_lt)).trans UInt16.ofNat_toNat
  · exact (congrArg UInt16.ofNat (words 2 _ specific.toNat_lt)).trans UInt16.ofNat_toNat
  · exact (congrArg UInt32.ofNat (words 4 _ bodyLen.toNat_lt)).trans UInt32.ofNat_toNat
  · exact (congrArg UInt32.ofNat (words 4 _ opaqueWord.toNat_lt)).trans UInt32.ofNat_toNat
  · exact (congrArg UInt64.ofNat (words 8 _ cas.toNat_lt)).trans UInt64.ofNat_toNat

theorem appendEmptyResponse_eq (out : Bytes) (opcode : UInt8) (status : McbpStatus) (opaqueWord : UInt32) :
    appendEmptyResponse out opcode status opaqueWord = out ++ emptyResponse opcode status opaqueWord := by
  simp [appendEmptyResponse, appendResponse, emptyResponse]

/-- The datatype lands in the header of the response just appended and touches nothing before it. -/
theorem appendGetResponse_eq (out : Bytes) (opaqueWord : UInt32) (cas : UInt64) (flags : UInt32) (value : Bytes)
    (datatype : UInt8) :
    appendGetResponse out opaqueWord cas flags value datatype =
      out ++ getResponse opaqueWord cas flags value datatype := by
  have patched : ∀ hdr : McbpHeader, ∀ rest : Bytes,
      (hdr.push ++ rest).set 5 datatype = { hdr with datatype := datatype }.push ++ rest := fun _ _ => rfl
  simp only [appendGetResponse, appendResponse, getResponse, getHeader, List.append_nil, List.append_assoc]
  rw [List.set_append_right _ _ (Nat.le_add_right ..), Nat.add_sub_cancel_left, patched]

theorem emptyResponse_length (opcode : UInt8) (status : McbpStatus) (opaqueWord : UInt32) :
    (emptyResponse opcode status opaqueWord).length = kHeaderSize := McbpHeader.push_length _

theorem getResponse_length (opaqueWord : UInt32) (cas : UInt64) (flags : UInt32) (value : Bytes) (datatype : UInt8) :
    (getResponse opaqueWord cas flags value datatype).length = kHeaderSize + 4 + value.length := by
  simp [getResponse, getHeader, Nat.add_assoc]

end FluxKV.Protocol
