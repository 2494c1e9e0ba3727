import FluxKV.Connection.CachedGet
import FluxKV.Connection.Send.Encoders
import FluxKV.Engine.Dispatch

/-! # Four ways to answer a GET

A document that the cache has is copied out as the requests are parsed, if it is short enough, or sent from the
cache's callback. One that it does not have comes from magma, where the writer left it with its metadata in one of two
forms, and is sent by the loop or by the reader itself. The bytes are the same but for the CAS: the cache gives the
seqno of its entry, which is zero until the write is acknowledged.
-/

namespace FluxKV.Engine

open Reads

/-- The metadata that `executePersist` writes; `cas` is the clock. -/
def Request.docMeta (r : Request) (seqno : ℕ) (cas : UInt64) : DocMeta where
  seqno := .ofNat seqno
  cas := cas
  valueSize := .ofNat r.value.length
  flags := r.content.flags
  expiry := r.content.expiry
  deleted := if r.opcode = .delete then 1 else 0
  datatype := r.content.datatype

/-- What magma gives for a key whose last write this was: the bytes that were written, and nothing after a delete. -/
def Request.stored (r : Request) (seqno : ℕ) (cas : UInt64) (form : DocMeta.Form) : Answer :=
  match r.mutation with
  | .set value .. => ⟨.ok, form.write (r.docMeta seqno cas), value⟩
  | .delete => ⟨.okDocNotFound, [], []⟩

/-- The call that `fillCache` makes of the cache. -/
def Reads.Answer.fillCache {P : Type*} (a : Answer) (doorkeeper : Bool) (key : DocKey) (address : P) :
    Option (Cache.CacheOp P) :=
  if a.hit then
    let dm := DocMeta.decodeOrZero a.metadata
    some (.putIfAbsent doorkeeper key dm.seqno.toNat a.value dm.flags dm.expiry dm.datatype address)
  else none

/-- What the encoders see of a request that was queued for this header. -/
def Reads.GetRequest.completed (req : GetRequest) (hdr : Protocol.McbpHeader) : Connection.Send.CompletedGet where
  opcode := hdr.opcode
  opaqueWord := hdr.opaqueWord
  resultOK := req.resultStatus.isOK
  resultSeqno := req.resultSeqno
  resultFlags := req.resultFlags
  resultDatatype := req.resultDatatype
  responseBuf := req.responseBuf

theorem Request.decode_stored (r : Request) (seqno : ℕ) (cas : UInt64) (form : DocMeta.Form) :
    DocMeta.decodeOrZero (form.write (r.docMeta seqno cas)) = r.docMeta seqno cas := by
  have flag : (r.docMeta seqno cas).deleted = 0 ∨ (r.docMeta seqno cas).deleted = 1 := by
    unfold Request.docMeta
    dsimp only
    split
    · exact .inr rfl
    · exact .inl rfl
  rw [DocMeta.decodeOrZero, DocMeta.decode_write _ flag form]
  rfl

end FluxKV.Engine

namespace FluxKV.Connection

open Protocol Cache Engine Reads Send Machine

theorem docResponse_eq_iff (hdr : McbpHeader) (content : Content) {n m : ℕ} (small : n < 2 ^ 64) (small' : m < 2 ^ 64) :
    docResponse hdr ⟨n, content⟩ = docResponse hdr ⟨m, content⟩ ↔ content.deleted = true ∨ n = m := by
  unfold docResponse
  by_cases deleted : content.deleted = true
  · rw [if_pos deleted, if_pos deleted]
    exact iff_of_true rfl (.inl deleted)
  rw [if_neg deleted, if_neg deleted, or_iff_right deleted]
  refine ⟨fun same => ?_, fun same => by rw [same]⟩
  simp only [getResponse, getHeader, List.append_assoc] at same
  have header := congrArg McbpHeader.pull same
  rw [McbpHeader.pull_push, McbpHeader.pull_push] at header
  have cas : UInt64.ofNat n = UInt64.ofNat m := congrArg McbpHeader.cas header
  rwa [← UInt64.toNat_inj, UInt64.toNat_ofNat_of_lt' small, UInt64.toNat_ofNat_of_lt' small'] at cas

/-- The response to a GET that a reader took to magma. -/
theorem frame_completed (r : Request) (seqno : ℕ) (cas : UInt64) (form : DocMeta.Form) (g : Get) (hdr : McbpHeader) :
    (((g.reset.complete (r.stored seqno cas form)).completed hdr).reply 0).frame =
      docResponse hdr ⟨seqno, r.content⟩ := by
  have decoded := r.decode_stored seqno cas form
  obtain ⟨id, thread, vb, key, mutation, owner⟩ := r
  cases mutation with
  | delete => rfl
  | set value flags expiry datatype =>
    simp only [complete_reset, Get.told, Request.stored, decoded]
    rfl

section S3Fifo

variable {P : Type*} {hash : DocKey → UInt64} {shardMask : UInt64}

/-- The calls that leave a write in the cache as magma has it: the acknowledgement of its put, and the fill from
magma's answer where there is no entry. -/
def Settles (s : DocStore) (r : Request) (seqno : ℕ) (a : Answer) (op : CacheOp P) : Prop :=
  (op = .markPersisted r.docKey seqno ∧ 0 < seqno ∧ ∃ n, s.get r.docKey = some ⟨n, r.content⟩) ∨
    s r.docKey = none ∧ ∃ doorkeeper address, a.fillCache doorkeeper r.docKey address = some op

/-- What a search finds after such a call is the write with its seqno. -/
theorem Settles.get {s t : DocStore} {r : Request} {seqno : ℕ} {cas : UInt64} {form : DocMeta.Form}
    {call : CacheOp P × Report} (settles : Settles s r seqno (r.stored seqno cas form) call.1)
    (small : seqno < 2 ^ 64) (step : s.Step call t) {doc : Version} (found : t.get r.docKey = some doc) :
    doc = ⟨seqno, r.content⟩ := by
  obtain ⟨p, held, rfl⟩ := Option.map_eq_some_iff.mp found
  rcases settles with ⟨acknowledged, positive, n, before⟩ | ⟨absent, doorkeeper, address, filled⟩
  · rcases step.2 with evicts | ⟨⟨_, _, _, _, _, _, _, fill, _⟩, _⟩
    · have after := evicts.held held
      obtain ⟨q, was, same⟩ := Option.map_eq_some_iff.mp before
      rw [acknowledged, DocStore.effect, DocStore.markPersisted, Contents.alter_self, was, Option.map_some] at after
      rw [← Option.some.inj after, same]
      exact if_neg positive.ne'
    · rw [acknowledged] at fill
      cases fill
  · have decoded := r.decode_stored seqno cas form
    obtain ⟨id, thread, vb, key, mutation, owner⟩ := r
    cases mutation with
    | delete => cases filled
    | set value flags expiry datatype =>
      simp only [Answer.fillCache, Request.stored, decoded, Answer.hit, Status.isOK, Status.isOkDocNotFound,
        Bool.not_false, Bool.and_self, if_true, Option.some.injEq] at filled
      rcases step.2 with evicts | ⟨_, rfl⟩
      · have after := evicts.held held
        rw [← filled, DocStore.effect, Contents.fill, Contents.alter_self, absent, Option.none_or] at after
        have same : (UInt64.ofNat seqno).toNat = seqno := UInt64.toNat_ofNat_of_lt' small
        rw [← Option.some.inj after]
        exact congrArg (fun seqno => Version.mk seqno ⟨value, flags, expiry, datatype, false⟩) same
      · cases absent.symm.trans held

end S3Fifo

/-- A SET of the document `holding [7]`. -/
def heldWrite : Request := ⟨0, 0, 1, [7], .set [5] 0 0 0, none⟩

end FluxKV.Connection
