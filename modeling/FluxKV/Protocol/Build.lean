import FluxKV.Protocol.Response

/-! # Responses from pointers

The encoders take extras, key and value as pointers with lengths. `appendResponse` grows the connection's
buffer and fills zeros in for a null pointer; `buildResponse` allocates a buffer of the full length, whose
bytes are whatever the allocator left there, and copies into it from the front. They give the same bytes
for blocks that have a pointer where they have a length.
-/

namespace FluxKV.Protocol

/-- A `const void*` and a length, with the bytes behind it unless it is null. -/
inductive Block where
  | null (len : ℕ)
  | data (bytes : Bytes)
deriving DecidableEq, Repr

namespace Block

def len : Block → ℕ
  | null len => len
  | data bytes => bytes.length

/-- The bytes `put` appends for a block. -/
def contents : Block → Bytes
  | null len => List.replicate len 0
  | data bytes => bytes

/-- A block with a length has a pointer. -/
def NonNull : Block → Prop
  | null len => len = 0
  | data _ => True

instance (b : Block) : Decidable b.NonNull :=
  match b with
  | null len => inferInstanceAs (Decidable (len = 0))
  | data _ => inferInstanceAs (Decidable True)

@[simp] theorem contents_length (b : Block) : b.contents.length = b.len := by
  cases b with
  | null len => exact List.length_replicate
  | data bytes => rfl

end Block

/-- The header for a response whose blocks have these lengths. -/
def blocksHeader (opcode : UInt8) (status : McbpStatus) (opaqueWord : UInt32) (cas : UInt64)
    (extrasLen keyLen valueLen : ℕ) : McbpHeader where
  magic := kResponseMagic
  opcode := opcode
  keyLen := .ofNat keyLen
  extrasLen := .ofNat extrasLen
  datatype := 0
  specific := status.code
  bodyLen := .ofNat (extrasLen + keyLen + valueLen)
  opaqueWord := opaqueWord
  cas := cas

/-- `put` of `appendResponse`. -/
def put (out : Bytes) (b : Block) : Bytes := out ++ b.contents

/-- `appendResponse` as it is called, with pointers. -/
def appendBlocks (out : Bytes) (opcode : UInt8) (status : McbpStatus) (opaqueWord : UInt32) (cas : UInt64)
    (extras key value : Block) : Bytes :=
  let hdr := blocksHeader opcode status opaqueWord cas extras.len key.len value.len
  put (put (put (put out (.data hdr.push)) extras) key) value

/-- `appendGetResponse` as it is called, with a pointer to the value. -/
def appendGetBlocks (out : Bytes) (opaqueWord : UInt32) (cas : UInt64) (flags : UInt32) (value : Block)
    (datatype : UInt8) : Bytes :=
  (appendBlocks out Opcode.get.code .success opaqueWord cas (.data (BigEndian.beBytes 4 flags.toNat)) (.null 0)
    value).set (out.length + 5) datatype

/-- Copy over the bytes of a buffer from the offset `p`. -/
def memcpy (buf : Bytes) (p : ℕ) (src : Bytes) : Bytes := buf.take p ++ src ++ buf.drop (p + src.length)

/-- `if (len > 0 && ptr) { memcpy(p, ptr, len); p += len; }`. -/
def copyBlock (buf : Bytes) (p : ℕ) : Block → Bytes × ℕ
  | .null _ => (buf, p)
  | .data bytes => if 0 < bytes.length then (memcpy buf p bytes, p + bytes.length) else (buf, p)

/-- `fresh` is what the allocator left in the new buffer. -/
def buildResponse (fresh : ℕ → UInt8) (opcode : UInt8) (status : McbpStatus) (opaqueWord : UInt32) (cas : UInt64)
    (extras key value : Block) : Bytes :=
  let bodyLen := extras.len + key.len + value.len
  let buf := (List.range (kHeaderSize + bodyLen)).map fresh
  let hdr := blocksHeader opcode status opaqueWord cas extras.len key.len value.len
  let buf := memcpy buf 0 hdr.push
  let (buf, p) := copyBlock buf kHeaderSize extras
  let (buf, p) := copyBlock buf p key
  (copyBlock buf p value).1

theorem blocksHeader_eq (opcode : UInt8) (status : McbpStatus) (opaqueWord : UInt32) (cas : UInt64)
    (extras key value : Block) :
    blocksHeader opcode status opaqueWord cas extras.len key.len value.len =
      responseHeader opcode status opaqueWord cas extras.contents key.contents value.contents := by
  simp only [blocksHeader, responseHeader, Block.contents_length]

theorem appendBlocks_eq (out : Bytes) (opcode : UInt8) (status : McbpStatus) (opaqueWord : UInt32) (cas : UInt64)
    (extras key value : Block) :
    appendBlocks out opcode status opaqueWord cas extras key value =
      appendResponse out opcode status opaqueWord cas extras.contents key.contents value.contents := by
  simp only [appendBlocks, put, appendResponse, blocksHeader_eq]
  rfl

theorem appendGetBlocks_eq (out : Bytes) (opaqueWord : UInt32) (cas : UInt64) (flags : UInt32) (value : Block)
    (datatype : UInt8) :
    appendGetBlocks out opaqueWord cas flags value datatype =
      appendGetResponse out opaqueWord cas flags value.contents datatype := by
  rw [appendGetBlocks, appendBlocks_eq]
  rfl

/-- A copy right after what is already written. -/
theorem memcpy_append (done rest src : Bytes) :
    memcpy (done ++ rest) done.length src = done ++ src ++ rest.drop src.length := by
  rw [memcpy, List.take_left, List.drop_length_add_append]

/-- What is written grows by the block's bytes, and the pointer stays at its end. -/
theorem copyBlock_append (done rest : Bytes) {b : Block} (nonNull : b.NonNull) :
    copyBlock (done ++ rest) done.length b =
      (done ++ b.contents ++ rest.drop b.len, (done ++ b.contents).length) := by
  cases b with
  | null len =>
    obtain rfl : len = 0 := nonNull
    simp [copyBlock, Block.contents, Block.len]
  | data bytes =>
    unfold copyBlock
    dsimp only
    split
    · rw [memcpy_append, List.length_append]
      rfl
    · next empty =>
      obtain rfl := List.eq_nil_of_length_eq_zero (Nat.eq_zero_of_not_pos empty)
      simp [Block.contents, Block.len]

/-- The new buffer is written from its front to its end. -/
theorem buildResponse_eq (fresh : ℕ → UInt8) (opcode : UInt8) (status : McbpStatus) (opaqueWord : UInt32)
    (cas : UInt64) {extras key value : Block} (nonNullExtras : extras.NonNull) (nonNullKey : key.NonNull)
    (nonNullValue : value.NonNull) :
    buildResponse fresh opcode status opaqueWord cas extras key value =
      appendResponse [] opcode status opaqueWord cas extras.contents key.contents value.contents := by
  have start := memcpy_append [] ((List.range (kHeaderSize + (extras.len + key.len + value.len))).map fresh)
    (blocksHeader opcode status opaqueWord cas extras.len key.len value.len).push
  rw [List.nil_append, List.nil_append, List.length_nil] at start
  unfold buildResponse
  dsimp only
  rw [start]
  generalize written : (blocksHeader opcode status opaqueWord cas extras.len key.len value.len).push = hdr
  have header : kHeaderSize = hdr.length := by rw [← written, McbpHeader.push_length]
  rw [header, copyBlock_append _ _ nonNullExtras, copyBlock_append _ _ nonNullKey, copyBlock_append _ _ nonNullValue,
    List.drop_drop, List.drop_drop, List.drop_drop, List.drop_eq_nil_of_le, List.append_nil, ← written,
    blocksHeader_eq]
  · rfl
  · rw [List.length_map, List.length_range]
    omega

/-- The header of either frame, read back, has the status and the opaque it was given. The lengths come back
where their fields can hold them. -/
theorem pull_blocksHeader (opcode : UInt8) (status : McbpStatus) (opaqueWord : UInt32) (cas : UInt64)
    {extrasLen keyLen valueLen : ℕ} (extrasFit : extrasLen < 2 ^ 8) (keyFits : keyLen < 2 ^ 16)
    (bodyFits : extrasLen + keyLen + valueLen < 2 ^ 32) (rest : Bytes) :
    let hdr := McbpHeader.pull ((blocksHeader opcode status opaqueWord cas extrasLen keyLen valueLen).push ++ rest)
    hdr.specific = status.code ∧ hdr.opaqueWord = opaqueWord ∧ hdr.extrasLen.toNat = extrasLen ∧
      hdr.keyLen.toNat = keyLen ∧ hdr.bodyLen.toNat = extrasLen + keyLen + valueLen := by
  rw [McbpHeader.pull_push]
  refine ⟨rfl, rfl, ?_, ?_, ?_⟩
  · exact UInt8.toNat_ofNat_of_lt' extrasFit
  · exact UInt16.toNat_ofNat_of_lt' keyFits
  · exact UInt32.toNat_ofNat_of_lt' bodyFits

end FluxKV.Protocol
