import FluxKV.Protocol.Header
import Mathlib.Data.List.Induction
import Mathlib.Logic.Function.Basic

/-! # Write requests, document versions and magma's documents

A SET or DELETE becomes a `Request` that passes from an IO thread through a vbucket queue to a writer.
`handleDelete` fills in neither value, flags, expiry nor datatype, so a request is one of two
mutations and a DELETE with a payload cannot be built. A vbucket of the store maps a key to its
latest version; a delete leaves a tombstone version.
-/

namespace FluxKV.Engine

open Protocol

/-- A vbucket id with a key, which names a document. -/
abbrev DocKey := UInt16 × Bytes

/-- What a version of a document holds besides its seqno. -/
structure Content where
  value : Bytes
  flags : UInt32
  expiry : UInt32
  datatype : UInt8
  deleted : Bool
deriving DecidableEq, Repr, Inhabited

/-- The body of a write, as `handleSet` and `handleDelete` leave it in the request. -/
inductive Mutation where
  | set (value : Bytes) (flags expiry : UInt32) (datatype : UInt8)
  | delete
deriving DecidableEq, Repr

/-- `struct Request`, for writes. Requests are told apart by address in the source: `id` stands for
the address and numbers the writes in the order of their cache puts. `thread` is the IO thread whose
handler built the request and `ioOwner` the loop that answers it, set in durable mode only. -/
structure Request where
  id : ℕ
  thread : ℕ
  vbucket : UInt16
  key : Bytes
  mutation : Mutation
  ioOwner : Option ℕ
deriving DecidableEq, Repr

namespace Request

def opcode (r : Request) : Opcode :=
  match r.mutation with
  | .set .. => .set
  | .delete => .delete

/-- The version this write installs, in the cache and in magma alike. -/
def content (r : Request) : Content :=
  match r.mutation with
  | .set value flags expiry datatype => ⟨value, flags, expiry, datatype, false⟩
  | .delete => ⟨[], 0, 0, 0, true⟩

def value (r : Request) : Bytes := r.content.value

def docKey (r : Request) : DocKey := (r.vbucket, r.key)

/-- The bytes one request is charged with: key, value and the `Request` itself. -/
def itemSize (sizeofRequest : ℕ) (r : Request) : ℕ := r.key.length + r.value.length + sizeofRequest

end Request

/-- A document as magma holds it. -/
structure Version where
  seqno : ℕ
  content : Content
deriving DecidableEq, Repr, Inhabited

/-- One vbucket's documents. -/
abbrev Store := Bytes → Option Version

/-- The last write of a key in a sequence of writes. -/
def lastWrite (key : Bytes) (writes : List Request) : Option Request :=
  (writes.filter fun r => r.key = key).getLast?

theorem lastWrite_eq_some_iff {key : Bytes} {writes : List Request} {r : Request} :
    lastWrite key writes = some r ↔
      ∃ before after, writes = before ++ r :: after ∧ r.key = key ∧ ∀ w ∈ after, w.key ≠ key := by
  rw [lastWrite, List.getLast?_eq_some_iff]
  constructor
  · rintro ⟨kept, split⟩
    obtain ⟨before, rest, rfl, _, tail⟩ := List.filter_eq_append_iff.mp split
    obtain ⟨gap, after, rfl, _, same, none⟩ := List.filter_eq_cons_iff.mp tail
    refine ⟨before ++ gap, after, by simp, by simpa using same, fun w member => ?_⟩
    simpa using List.filter_eq_nil_iff.mp none w member
  · rintro ⟨before, after, rfl, same, other⟩
    have none : after.filter (fun w => w.key = key) = [] :=
      List.filter_eq_nil_iff.mpr fun w member => by simpa using other w member
    exact ⟨before.filter fun w => w.key = key, by simp [same, none]⟩

theorem lastWrite_eq_none_iff {key : Bytes} {writes : List Request} :
    lastWrite key writes = none ↔ ∀ w ∈ writes, w.key ≠ key := by
  simp [lastWrite]

theorem lastWrite_append (key : Bytes) (first second : List Request) :
    lastWrite key (first ++ second) = (lastWrite key second).or (lastWrite key first) := by
  simp only [lastWrite, List.filter_append, List.getLast?_append]

namespace Store

/-- One `WriteOperation` of a batch. -/
def write (store : Store) (op : Request × ℕ) : Store :=
  Function.update store op.1.key (some ⟨op.2, op.1.content⟩)

/-- A successful `WriteDocs`: the operations in order. -/
def writeDocs (store : Store) (ops : List (Request × ℕ)) : Store := ops.foldl write store

theorem writeDocs_append (store : Store) (first second : List (Request × ℕ)) :
    store.writeDocs (first ++ second) = (store.writeDocs first).writeDocs second :=
  List.foldl_append ..

theorem writeDocs_concat (store : Store) (ops : List (Request × ℕ)) (op : Request × ℕ) :
    store.writeDocs (ops ++ [op]) = (store.writeDocs ops).write op := by
  rw [writeDocs_append]
  rfl

/-- A batch leaves a key with the version of its last write to the key, or untouched. -/
theorem writeDocs_apply (store : Store) (ops : List (Request × ℕ)) (key : Bytes) :
    store.writeDocs ops key =
      (((ops.filter fun op => op.1.key = key).getLast?.map fun op => (⟨op.2, op.1.content⟩ : Version)).or
        (store key)) := by
  induction ops using List.reverseRecOn with
  | nil => rfl
  | append_singleton ops op ih =>
    rw [writeDocs_concat, write, List.filter_append]
    by_cases same : op.1.key = key
    · subst same
      simp
    · rw [Function.update_of_ne (Ne.symm same), ih]
      simp [same]

theorem writeDocs_of_forall_ne (store : Store) {ops : List (Request × ℕ)} {key : Bytes}
    (other : ∀ op ∈ ops, op.1.key ≠ key) : store.writeDocs ops key = store key := by
  have none : ops.filter (fun op => op.1.key = key) = [] :=
    List.filter_eq_nil_iff.mpr fun op member => by simpa using other op member
  rw [writeDocs_apply, none]
  rfl

/-- What a batch leaves of a key, seqno aside, is decided by the requests alone. -/
theorem writeDocs_content (store : Store) (ops : List (Request × ℕ)) (key : Bytes) :
    (store.writeDocs ops key).map Version.content =
      ((lastWrite key (ops.map Prod.fst)).map Request.content).or ((store key).map Version.content) := by
  rw [writeDocs_apply, lastWrite, List.filter_map]
  simp only [List.getLast?_map, Function.comp_def, Option.map_map]
  cases (ops.filter fun op => op.1.key = key).getLast? <;> rfl

end Store

/-- The seqnos `NextSeqno` hands to the requests of a batch, in order, after `last`. -/
def assignSeqnos (last : ℕ) (batch : List Request) : List (Request × ℕ) := batch.zipIdx (last + 1)

@[simp] theorem assignSeqnos_map_fst (last : ℕ) (batch : List Request) :
    (assignSeqnos last batch).map Prod.fst = batch := by
  simp [assignSeqnos]

theorem mem_assignSeqnos_bounds {last : ℕ} {batch : List Request} {op : Request × ℕ}
    (member : op ∈ assignSeqnos last batch) : last < op.2 ∧ op.2 ≤ last + batch.length := by
  have bounds := List.mem_zipIdx (x := op.1) (i := op.2) member
  omega

/-- Seqnos rise along a batch. -/
theorem assignSeqnos_pairwise (last : ℕ) (batch : List Request) :
    (assignSeqnos last batch).Pairwise fun a b => a.2 < b.2 := by
  induction batch generalizing last with
  | nil => exact .nil
  | cons r rest ih =>
    refine .cons (fun op member => ?_) (ih (last + 1))
    have bounds : last + 1 < op.2 ∧ _ := mem_assignSeqnos_bounds member
    exact bounds.1

end FluxKV.Engine
