import FluxKV.Cache.Represents
import FluxKV.Cache.S3Fifo
import FluxKV.Machine.Run

/-! # The cache as a store of documents and pins

`FlatCache` is the S3-FIFO cache in memory, one step per call, and `DocStore` what a caller may rely
on: a partial map from vbucket and key to a document and the number of writes that pin it. A call does what
its name says to one key, and may besides drop entries that nothing pins. A run of the cache is a run of the
store as long as acknowledgements come for pinned entries and the pins of an entry fit in their 32 bits.
-/

namespace FluxKV.Cache

open Engine Protocol Counting Machine

/-- The calls of `DocCache`, with the address a new entry is given. -/
inductive CacheOp (P : Type*) where
  | put (key : DocKey) (content : Content) (address : P)
  | putShared (key : DocKey) (content : Content) (capacity : ℕ) (address : P)
  | putIfAbsent (doorkeeper : Bool) (key : DocKey) (seqno : ℕ) (value : Bytes) (flags expiry : UInt32)
    (datatype : UInt8) (address : P)
  | markPersisted (key : DocKey) (seqno : ℕ)
  | erase (key : DocKey)
  | get (key : DocKey)
  | getCopy (key : DocKey) (bufCap : ℕ)
  | setBudget (maxBytes : ℕ)
deriving DecidableEq, Repr

/-- What a call returns. -/
inductive Report where
  | done
  | got (doc : Option Version)
  | copied (result : CopyResult)
deriving DecidableEq, Repr

abbrev DocStore := Contents DocKey Version

namespace DocStore

variable (s : DocStore)

/-- A put replaces the document and adds a pin, however many there are. -/
def put (key : DocKey) (content : Content) : DocStore := s.alter key fun _ => some ⟨⟨0, content⟩, s.pending key + 1⟩

def markPersisted (key : DocKey) (seqno : ℕ) : DocStore :=
  s.alter key (Option.map fun held => ⟨Shard.noteSeqno seqno held.doc, held.pending - 1⟩)

def get (key : DocKey) : Option Version := (s key).map Pinned.doc

def getCopy (key : DocKey) (bufCap : ℕ) : CopyResult :=
  match s.get key with
  | none => .miss
  | some doc =>
    if doc.content.deleted then .tombstone { doc with content := { doc.content with value := [] } }
    else if bufCap < doc.content.value.length then .tooLarge
    else .hit doc

/-- What a call does to its key. The other outcome of a fill, with the doorkeeper on, is to do nothing. -/
def effect {P : Type*} : CacheOp P → DocStore
  | .put key content _ => s.put key content
  | .putShared key content _ _ => s.put key content
  | .putIfAbsent _ key seqno value flags expiry datatype _ =>
    s.fill key ⟨seqno, value, flags, expiry, datatype, false⟩
  | .markPersisted key seqno => s.markPersisted key seqno
  | .erase key => s.erase key
  | .get _ | .getCopy .. | .setBudget _ => s

/-- What a call returns. -/
def report {P : Type*} : CacheOp P → Report
  | .get key => .got (s.get key)
  | .getCopy key bufCap => .copied (s.getCopy key bufCap)
  | _ => .done

/-- The doorkeeper turned a fill away. -/
def Deferred {P : Type*} (s : DocStore) (op : CacheOp P) : Prop :=
  ∃ key seqno value flags expiry datatype address,
    op = .putIfAbsent true key seqno value flags expiry datatype address ∧ s key = none

/-- One call on the store: its effect, up to dropped entries, and what it returns. -/
def Step {P : Type*} (s : DocStore) (call : CacheOp P × Report) (t : DocStore) : Prop :=
  call.2 = s.report call.1 ∧ ((s.effect call.1).Evicts t ∨ s.Deferred call.1 ∧ t = s)

/-- An entry that the effect of a call leaves pinned is there after it. -/
theorem Step.pinned_stays {P : Type*} {s t : DocStore} {call : CacheOp P × Report} (step : s.Step call t)
    {key : DocKey} {p : Pinned Version} (held : s.effect call.1 key = some p) (pinned : 0 < p.pending) :
    t key = some p := by
  rcases step.2 with evicts | ⟨⟨k, seqno, value, flags, expiry, datatype, address, deferred, absent⟩, rfl⟩
  · rcases evicts key with same | ⟨_, unpinned⟩
    · rw [same, held]
    · rw [Contents.pending_of_eq held] at unpinned
      exact (Nat.ne_of_gt pinned unpinned).elim
  · rw [deferred, effect, Contents.fill, Contents.alter, absent, Function.update_apply] at held
    split at held
    · cases held
      exact (Nat.lt_irrefl 0 pinned).elim
    · exact held

/-- While 32 bits hold the pins, a put that counts in them is that of the store. -/
theorem put_eq {key : DocKey} (few : s.pending key + 1 < 2 ^ 32) (content : Content) :
    Contents.put s key ⟨0, content⟩ = s.put key content := by
  have pins : fetchAdd 32 (((s key).map Pinned.pending).getD 0) 1 = s.pending key + 1 := fetchAdd_of_lt few
  simp only [Contents.put, DocStore.put, Contents.alter, pins]

/-- An acknowledgement of a pinned entry does not wrap. -/
theorem markPersisted_eq {key : DocKey} (pinned : ∀ p, s key = some p → p.pending ≠ 0) (seqno : ℕ) :
    Contents.unpin s key (Shard.noteSeqno seqno) = s.markPersisted key seqno := by
  simp only [Contents.unpin, DocStore.markPersisted, Contents.alter]
  congr 1
  cases held : s key with
  | none => rfl
  | some p => simp only [Option.map_some, fetchSub_of_le (Nat.one_le_iff_ne_zero.mpr (pinned p held))]

end DocStore

namespace Shard

variable (hash : DocKey → UInt64) (s : Shard) (key : DocKey)

theorem persist_evicts (seqno : ℕ) :
    (s.contents.unpin key (noteSeqno seqno)).Evicts (s.persist hash key seqno).contents := by
  rw [← contents_markPersisted]
  unfold persist
  split
  · exact (trims_evict hash _).1
  · exact .refl _

end Shard

namespace FlatShard

variable {P : Type*} [DecidableEq P] (hash : DocKey → UInt64)

/-- What a search finds for each key, and how many writes pin it. -/
def docs (f : FlatShard P) : DocStore := fun key => (f.lookup hash key).map fun found => found.2.entry.pinned

variable {hash} {f f' : FlatShard P} {s s' : Shard} {items items' : Queue → List P} {p : P} {n : Node}

omit [DecidableEq P] in
/-- A shard in memory holds what the map it represents holds. -/
theorem Represents.contents_eq (rel : Represents hash f s items none) : s.contents = f.docs hash := by
  funext key
  rw [Shard.contents, rel.index_eq key, docs, Option.map_map]
  rfl

theorem Represents.evict_evicts (rel : Represents hash f s items none) :
    (f.docs hash).Evicts ((f.evict hash).docs hash) := by
  obtain ⟨_, after⟩ := rel.evict
  rw [← rel.contents_eq, ← after.contents_eq]
  exact (Shard.trims_evict hash s).1

theorem Represents.putEntry_evicts (rel : Represents hash f s items none) (vacant : f.heap p = none) {key : DocKey}
    (few : (f.docs hash).pending key + 1 < 2 ^ 32) (content : Content) (sharedCapacity : Option ℕ) :
    ((f.docs hash).put key content).Evicts ((f.putEntry hash p key content sharedCapacity).docs hash) := by
  obtain ⟨_, after⟩ := rel.putEntry vacant key content sharedCapacity
  rw [← DocStore.put_eq _ few, ← rel.contents_eq, ← after.contents_eq]
  exact Shard.putEntry_evicts hash s key content sharedCapacity

theorem Represents.putIfAbsent_evicts (rel : Represents hash f s items none) (vacant : f.heap p = none)
    (doorkeeper : Bool) (key : DocKey) (doc : Version) :
    ((f.docs hash).fill key doc).Evicts ((f.putIfAbsent hash doorkeeper p key doc).docs hash) ∨
      doorkeeper = true ∧ f.docs hash key = none ∧ (f.putIfAbsent hash doorkeeper p key doc).docs hash = f.docs hash := by
  obtain ⟨_, after⟩ := rel.putIfAbsent vacant doorkeeper key doc
  have evicts := Shard.fillInsert_evicts hash s key doc
  rw [← after.contents_eq, ← rel.contents_eq]
  unfold Shard.putIfAbsent
  split_ifs with held closed
  · obtain ⟨e, there⟩ := Option.isSome_iff_exists.mp held
    simp only [Shard.fillInsert, there] at evicts
    exact .inl evicts
  · refine .inr ⟨closed.1, ?_, Shard.contents_ghostAdd s (hash key)⟩
    rw [Shard.contents, Option.not_isSome_iff_eq_none.mp held]
    rfl
  · exact .inl evicts

theorem Represents.markPersisted_evicts (rel : Represents hash f s items none) {key : DocKey}
    (pinned : ∀ p, f.docs hash key = some p → p.pending ≠ 0) (seqno : ℕ) :
    ((f.docs hash).markPersisted key seqno).Evicts ((f.markPersisted hash key seqno).docs hash) := by
  obtain ⟨_, after⟩ := rel.markPersisted key seqno
  rw [← DocStore.markPersisted_eq _ pinned, ← rel.contents_eq, ← after.contents_eq]
  exact Shard.persist_evicts hash s key seqno

theorem Represents.erase_evicts (rel : Represents hash f s items none) (key : DocKey) :
    ((f.docs hash).erase key).Evicts ((f.erase hash key).docs hash) := by
  obtain ⟨_, after⟩ := rel.erase key
  rw [← rel.contents_eq, ← after.contents_eq]
  exact .of_eq (Shard.contents_erase s key)

theorem Represents.get (rel : Represents hash f s items none) (key : DocKey) :
    ∃ s', Represents hash (f.get hash key).1 s' items none := by
  unfold FlatShard.get
  cases found : f.lookup hash key with
  | none => exact ⟨s, rel⟩
  | some entry => exact ⟨_, rel.touch (rel.lookup_eq_some.mp found).1⟩

/-- A search reports the current document. -/
theorem get_snd (f : FlatShard P) (key : DocKey) : (f.get hash key).2 = (f.docs hash).get key := by
  unfold get DocStore.get docs
  cases f.lookup hash key <;> rfl

/-- `GetCopy` moves what `Get` moves. -/
theorem getCopy_eq (f : FlatShard P) (key : DocKey) (bufCap : ℕ) :
    f.getCopy hash key bufCap = ((f.get hash key).1, (f.docs hash).getCopy key bufCap) := by
  unfold getCopy get DocStore.getCopy DocStore.get docs
  cases f.lookup hash key <;> rfl

/-- A search changes nothing that a search can see, whatever state the memory is in. -/
theorem docs_get (f : FlatShard P) (key : DocKey) : (f.get hash key).1.docs hash = f.docs hash := by
  unfold get
  cases found : f.lookup hash key with
  | none => rfl
  | some entry =>
    obtain ⟨p, n⟩ := entry
    have held : f.heap p = some n := by
      obtain ⟨q, _, inHeap⟩ := Option.bind_eq_some_iff.mp found
      obtain ⟨m, inHeap, same⟩ := Option.map_eq_some_iff.mp inHeap
      cases same
      exact inHeap
    have seen : ∀ {β : Type} (view : Node → β), (∀ freq, view { n with freq := freq } = view n) →
        ∀ q, ((f.touch p n).heap q).map view = (f.heap q).map view := by
      intro β view blind q
      rcases eq_or_ne q p with rfl | other
      · simp only [touch, setNode, Function.update_self, held, Option.map_some, blind]
      · simp only [touch, setNode, Function.update_of_ne other]
    funext k
    have sameFind : (f.touch p n).find hash k = f.find hash k := by
      have keys : ∀ q, ((f.touch p n).heap q).any (fun m => m.key = k) = (f.heap q).any fun m => m.key = k := by
        intro q
        simpa only [Option.any_map] using congrArg (Option.any (· = k)) (seen Node.key (fun _ => rfl) q)
      simp only [find, touch, setNode] at keys ⊢
      simp only [keys]
    simp only [docs, lookup, sameFind, Option.map_bind, Function.comp_def, Option.map_map]
    congr 1
    funext q
    exact seen (fun m => m.entry.pinned) (fun _ => rfl) q

end FlatShard

/-- `S3FifoCache` in memory. -/
structure FlatCache (P : Type*) where
  shards : ℕ → FlatShard P

namespace FlatCache

variable {P : Type*} (hash : DocKey → UInt64) (shardMask : UInt64)

def empty (maxBytes : ℕ) : FlatCache P := ⟨fun _ => .empty (maxBytes / (shardMask.toNat + 1))⟩

def shard (c : FlatCache P) (key : DocKey) : FlatShard P := c.shards (shardFor hash shardMask key)

def setShard (c : FlatCache P) (key : DocKey) (next : FlatShard P) : FlatCache P :=
  ⟨Function.update c.shards (shardFor hash shardMask key) next⟩

/-- A new entry is not given the address of a live one. -/
def fresh (c : FlatCache P) : CacheOp P → Bool
  | .put key _ address | .putShared key _ _ address | .putIfAbsent _ key _ _ _ _ _ address =>
    ((c.shard hash shardMask key).heap address).isNone
  | _ => true

/-- What a search finds for each key, and how many writes pin it. -/
def store (c : FlatCache P) : DocStore := fun key => (c.shard hash shardMask key).docs hash key

/-- Every shard's memory is in order. -/
def Sound (c : FlatCache P) : Prop := ∀ i, ∃ s items, FlatShard.Represents hash (c.shards i) s items none

section Calls

variable [DecidableEq P]

/-- One call: the cache after it and what it returns. -/
def apply (c : FlatCache P) : CacheOp P → FlatCache P × Report
  | .put key content address =>
    (c.setShard hash shardMask key ((c.shard hash shardMask key).putEntry hash address key content none), .done)
  | .putShared key content capacity address =>
    (c.setShard hash shardMask key ((c.shard hash shardMask key).putEntry hash address key content (some capacity)),
      .done)
  | .putIfAbsent doorkeeper key seqno value flags expiry datatype address =>
    (c.setShard hash shardMask key ((c.shard hash shardMask key).putIfAbsent hash doorkeeper address key
      ⟨seqno, value, flags, expiry, datatype, false⟩), .done)
  | .markPersisted key seqno =>
    (c.setShard hash shardMask key ((c.shard hash shardMask key).markPersisted hash key seqno), .done)
  | .erase key => (c.setShard hash shardMask key ((c.shard hash shardMask key).erase hash key), .done)
  | .get key =>
    let result := (c.shard hash shardMask key).get hash key
    (c.setShard hash shardMask key result.1, .got result.2)
  | .getCopy key bufCap =>
    let result := (c.shard hash shardMask key).getCopy hash key bufCap
    (c.setShard hash shardMask key result.1, .copied result.2)
  | .setBudget maxBytes =>
    (⟨fun i => if i ≤ shardMask.toNat then (c.shards i).setBudget hash (maxBytes / (shardMask.toNat + 1))
      else c.shards i⟩, .done)

def step (c : FlatCache P) (call : CacheOp P × Report) : Option (FlatCache P) :=
  if c.fresh hash shardMask call.1 = true ∧ (c.apply hash shardMask call.1).2 = call.2 then
    some (c.apply hash shardMask call.1).1
  else none

theorem step_eq_some {c c' : FlatCache P} {call : CacheOp P × Report} (taken : c.step hash shardMask call = some c') :
    c.fresh hash shardMask call.1 = true ∧ (c.apply hash shardMask call.1).2 = call.2 ∧
      (c.apply hash shardMask call.1).1 = c' := by
  unfold step at taken
  split at taken
  · next able => exact ⟨able.1, able.2, Option.some_inj.mp taken⟩
  · cases taken

/-- No acknowledgement comes for an entry without pins. -/
def Acknowledged (c : FlatCache P) (call : CacheOp P × Report) : Prop :=
  match call.1 with
  | .markPersisted key _ => ∀ held, c.store hash shardMask key = some held → held.pending ≠ 0
  | _ => True

/-- No put comes for an entry whose pins fill the 32 bits of their count. -/
def Countable (c : FlatCache P) (call : CacheOp P × Report) : Prop :=
  match call.1 with
  | .put key .. | .putShared key .. => (c.store hash shardMask).pending key + 1 < 2 ^ 32
  | _ => True

instance (c : FlatCache P) (call : CacheOp P × Report) : Decidable (c.Acknowledged hash shardMask call) := by
  unfold Acknowledged
  split <;> infer_instance

instance (c : FlatCache P) (call : CacheOp P × Report) : Decidable (c.Countable hash shardMask call) := by
  unfold Countable
  split <;> infer_instance

/-- The calls that keep to both. -/
def countedStep : FlatCache P → CacheOp P × Report → Option (FlatCache P) :=
  restrict (Countable hash shardMask) (restrict (Acknowledged hash shardMask) (step hash shardMask))

end Calls

variable {hash shardMask} {c c' : FlatCache P} {key : DocKey} {next : FlatShard P}

theorem Sound.empty (maxBytes : ℕ) : (FlatCache.empty shardMask maxBytes : FlatCache P).Sound hash :=
  fun _ => ⟨_, _, .empty hash _⟩

theorem Sound.setShard (sound : c.Sound hash) (represented : ∃ s items, FlatShard.Represents hash next s items none) :
    (c.setShard hash shardMask key next).Sound hash := by
  intro i
  by_cases same : i = shardFor hash shardMask key
  · simpa only [FlatCache.setShard, same, Function.update_self] using represented
  · simpa only [FlatCache.setShard, Function.update_of_ne same] using sound i

/-- A change to the documents of one shard is that change to the store. -/
private theorem setShard_evicts {change : Option (Pinned Version) → Option (Pinned Version)}
    (evicts : (((c.shard hash shardMask key).docs hash).alter key change).Evicts (next.docs hash)) :
    ((c.store hash shardMask).alter key change).Evicts
      ((c.setShard hash shardMask key next).store hash shardMask) := by
  intro k
  by_cases same : shardFor hash shardMask k = shardFor hash shardMask key
  · have after : (c.setShard hash shardMask key next).store hash shardMask k = next.docs hash k := by
      simp only [store, shard, FlatCache.setShard, same, Function.update_self]
    have before : (c.store hash shardMask).alter key change k =
        ((c.shard hash shardMask key).docs hash).alter key change k := by
      simp only [Contents.alter, Function.update_apply, store, shard, same]
    rw [after, Contents.pending, before]
    exact evicts k
  · have other : k ≠ key := fun equal => same (congrArg _ equal)
    refine .inl ?_
    rw [Contents.alter_of_ne _ _ other]
    simp only [store, shard, FlatCache.setShard, Function.update_of_ne same]

-- The store is spread over the shards, so that it is a shard's documents at the key and not as a function.
private theorem store_pending :
    (c.store hash shardMask).pending key = ((c.shard hash shardMask key).docs hash).pending key := by
  simp only [Contents.pending, store]

private theorem store_get :
    (c.store hash shardMask).get key = ((c.shard hash shardMask key).docs hash).get key := by
  simp only [DocStore.get, store]

private theorem setShard_evicts_put {content : Content}
    (evicts : (((c.shard hash shardMask key).docs hash).put key content).Evicts (next.docs hash)) :
    ((c.store hash shardMask).put key content).Evicts
      ((c.setShard hash shardMask key next).store hash shardMask) := by
  rw [DocStore.put, store_pending]
  exact setShard_evicts evicts

theorem store_setShard (same : next.docs hash = (c.shard hash shardMask key).docs hash) :
    (c.setShard hash shardMask key next).store hash shardMask = c.store hash shardMask := by
  funext k
  by_cases there : shardFor hash shardMask k = shardFor hash shardMask key
  · simp only [store, shard, FlatCache.setShard, there, Function.update_self, same]
  · simp only [store, shard, FlatCache.setShard, Function.update_of_ne there]

variable [DecidableEq P]

/-- A call keeps the memory in order. -/
theorem Sound.apply (sound : c.Sound hash) {op : CacheOp P} (able : c.fresh hash shardMask op = true) :
    (c.apply hash shardMask op).1.Sound hash := by
  cases op with
  | put key content address =>
    obtain ⟨s, items, rel⟩ := sound (shardFor hash shardMask key)
    exact sound.setShard ⟨_, rel.putEntry (Option.isNone_iff_eq_none.mp able) key content none⟩
  | putShared key content capacity address =>
    obtain ⟨s, items, rel⟩ := sound (shardFor hash shardMask key)
    exact sound.setShard ⟨_, rel.putEntry (Option.isNone_iff_eq_none.mp able) key content (some capacity)⟩
  | putIfAbsent doorkeeper key seqno value flags expiry datatype address =>
    obtain ⟨s, items, rel⟩ := sound (shardFor hash shardMask key)
    exact sound.setShard ⟨_, rel.putIfAbsent (Option.isNone_iff_eq_none.mp able) doorkeeper key _⟩
  | markPersisted key seqno =>
    obtain ⟨s, items, rel⟩ := sound (shardFor hash shardMask key)
    exact sound.setShard ⟨_, rel.markPersisted key seqno⟩
  | erase key =>
    obtain ⟨s, items, rel⟩ := sound (shardFor hash shardMask key)
    exact sound.setShard ⟨_, rel.erase key⟩
  | get key =>
    obtain ⟨s, items, rel⟩ := sound (shardFor hash shardMask key)
    obtain ⟨s', touched⟩ := rel.get key
    exact sound.setShard ⟨s', items, touched⟩
  | getCopy key bufCap =>
    obtain ⟨s, items, rel⟩ := sound (shardFor hash shardMask key)
    obtain ⟨s', touched⟩ := rel.get key
    apply sound.setShard
    rw [FlatShard.getCopy_eq]
    exact ⟨s', items, touched⟩
  | setBudget maxBytes =>
    intro i
    obtain ⟨s, items, rel⟩ := sound i
    simp only [FlatCache.apply]
    split
    · exact ⟨_, (rel.setBudget _ _).evict⟩
    · exact ⟨s, items, rel⟩

/-- A call does to the store what its name says, and otherwise drops unpinned entries. -/
theorem Sound.apply_step (sound : c.Sound hash) {op : CacheOp P} (able : c.fresh hash shardMask op = true)
    {report : Report} (known : c.Acknowledged hash shardMask (op, report))
    (few : c.Countable hash shardMask (op, report)) :
    DocStore.Step (c.store hash shardMask) (op, (c.apply hash shardMask op).2)
      ((c.apply hash shardMask op).1.store hash shardMask) := by
  cases op with
  | put key content address =>
    obtain ⟨s, items, rel⟩ := sound (shardFor hash shardMask key)
    have evicts := rel.putEntry_evicts (Option.isNone_iff_eq_none.mp able) few content none
    exact ⟨rfl, .inl (setShard_evicts_put evicts)⟩
  | putShared key content capacity address =>
    obtain ⟨s, items, rel⟩ := sound (shardFor hash shardMask key)
    have evicts := rel.putEntry_evicts (Option.isNone_iff_eq_none.mp able) few content (some capacity)
    exact ⟨rfl, .inl (setShard_evicts_put evicts)⟩
  | putIfAbsent doorkeeper key seqno value flags expiry datatype address =>
    obtain ⟨s, items, rel⟩ := sound (shardFor hash shardMask key)
    refine ⟨rfl, ?_⟩
    rcases rel.putIfAbsent_evicts (Option.isNone_iff_eq_none.mp able) doorkeeper key
      ⟨seqno, value, flags, expiry, datatype, false⟩ with filled | ⟨rfl, absent, same⟩
    · exact .inl (setShard_evicts filled)
    · exact .inr ⟨⟨key, seqno, value, flags, expiry, datatype, address, rfl, absent⟩, store_setShard same⟩
  | markPersisted key seqno =>
    obtain ⟨s, items, rel⟩ := sound (shardFor hash shardMask key)
    exact ⟨rfl, .inl (setShard_evicts (rel.markPersisted_evicts known seqno))⟩
  | erase key =>
    obtain ⟨s, items, rel⟩ := sound (shardFor hash shardMask key)
    exact ⟨rfl, .inl (setShard_evicts (rel.erase_evicts key))⟩
  | get key =>
    refine ⟨congrArg Report.got ((FlatShard.get_snd _ key).trans store_get.symm), .inl (.of_eq ?_)⟩
    exact store_setShard (FlatShard.docs_get _ key)
  | getCopy key bufCap =>
    simp only [FlatCache.apply, FlatShard.getCopy_eq]
    refine ⟨?_, .inl (.of_eq (store_setShard (FlatShard.docs_get _ key)))⟩
    simp only [DocStore.report, DocStore.getCopy, store_get]
  | setBudget maxBytes =>
    refine ⟨rfl, .inl fun key => ?_⟩
    obtain ⟨s, items, rel⟩ := sound (shardFor hash shardMask key)
    simp only [FlatCache.apply, Contents.pending, store, shard]
    split
    · exact (rel.setBudget (maxBytes / (shardMask.toNat + 1))
        (maxBytes / (shardMask.toNat + 1) * kSmallPercent % 2 ^ 64 / 100)).evict_evicts key
    · exact .inl rfl

theorem Sound.step {call : CacheOp P × Report} (sound : c.Sound hash) (taken : c.step hash shardMask call = some c') :
    c'.Sound hash := by
  obtain ⟨able, _, rfl⟩ := step_eq_some hash shardMask taken
  exact sound.apply able

theorem Sound.countedStep {call : CacheOp P × Report} (sound : c.Sound hash)
    (taken : c.countedStep hash shardMask call = some c') : c'.Sound hash :=
  sound.step (restrict_eq_some.mp (restrict_eq_some.mp taken).2).2

theorem Sound.store_step {call : CacheOp P × Report} (sound : c.Sound hash)
    (taken : c.countedStep hash shardMask call = some c') :
    DocStore.Step (c.store hash shardMask) call (c'.store hash shardMask) := by
  obtain ⟨few, taken⟩ := restrict_eq_some.mp taken
  obtain ⟨known, taken⟩ := restrict_eq_some.mp taken
  obtain ⟨able, reported, rfl⟩ := step_eq_some hash shardMask taken
  have step := sound.apply_step able known few
  rwa [reported] at step

/-- The cache in memory holds what the cache of the write path holds. -/
def Models (m : FlatCache P) (c : S3FifoCache hash shardMask) : Prop :=
  ∀ i, ∃ items, FlatShard.Represents hash (m.shards i) (c.shards i) items none

section Models

variable {m : FlatCache P} {cache : S3FifoCache hash shardMask}

omit [DecidableEq P] in
private theorem Models.setShard (models : m.Models cache) {s : Shard} {items : Queue → List P}
    (rel : FlatShard.Represents hash next s items none) (i : ℕ) :
    ∃ items', FlatShard.Represents hash ((m.setShard hash shardMask key next).shards i)
      (Function.update cache.shards (shardFor hash shardMask key) s i) items' none := by
  by_cases same : i = shardFor hash shardMask key
  · subst same
    simp only [FlatCache.setShard, Function.update_self]
    exact ⟨items, rel⟩
  · simp only [FlatCache.setShard, Function.update_of_ne same]
    exact models i

omit [DecidableEq P] in
theorem Models.contents_eq (models : m.Models cache) (key : DocKey) :
    cache.contents key = m.store hash shardMask key := by
  obtain ⟨items, rel⟩ := models (shardFor hash shardMask key)
  exact congrFun rel.contents_eq key

/-- A put is a put of the write path's cache. -/
theorem Models.put (models : m.Models cache) (key : DocKey) (content : Content) (sharedCapacity : Option ℕ) {p : P}
    (vacant : (m.shard hash shardMask key).heap p = none) :
    Models (m.setShard hash shardMask key ((m.shard hash shardMask key).putEntry hash p key content sharedCapacity))
      (cache.put key content sharedCapacity) := by
  obtain ⟨items, rel⟩ := models (shardFor hash shardMask key)
  obtain ⟨_, after⟩ := rel.putEntry vacant key content sharedCapacity
  exact models.setShard after

/-- `MarkPersisted` is its two sections in the write path's cache. -/
theorem Models.markPersisted (models : m.Models cache) (key : DocKey) (seqno : ℕ) :
    Models (m.setShard hash shardMask key ((m.shard hash shardMask key).markPersisted hash key seqno))
      (if (cache.markPersisted key seqno).2 then (cache.markPersisted key seqno).1.trim key
        else (cache.markPersisted key seqno).1) := by
  obtain ⟨items, rel⟩ := models (shardFor hash shardMask key)
  obtain ⟨_, marked⟩ := rel.markPersisted key seqno
  have shards : (if (cache.markPersisted key seqno).2 then (cache.markPersisted key seqno).1.trim key
      else (cache.markPersisted key seqno).1).shards =
        Function.update cache.shards (shardFor hash shardMask key) ((cache.shard key).persist hash key seqno) := by
    change (if ((cache.shard key).markPersisted key seqno).2 then _ else _ : S3FifoCache hash shardMask).shards = _
    unfold Shard.persist
    split
    · simp only [S3FifoCache.trim, S3FifoCache.trimShard, S3FifoCache.alterShard, S3FifoCache.markPersisted,
        S3FifoCache.shard, Function.update_self, Function.update_idem]
    · rfl
  intro i
  rw [shards]
  exact models.setShard marked i

theorem Models.erase (models : m.Models cache) (key : DocKey) :
    Models (m.setShard hash shardMask key ((m.shard hash shardMask key).erase hash key)) (cache.erase key) := by
  obtain ⟨items, rel⟩ := models (shardFor hash shardMask key)
  obtain ⟨_, erased⟩ := rel.erase key
  exact models.setShard erased

end Models

/-- A run of the cache in which no acknowledgement comes for an entry without pins and no put for one whose pins
fill their 32 bits is a run of the store, and an entry that a call leaves pinned is there after it. -/
theorem cache_refines_doc_store {maxBytes : ℕ} {tape : List (CacheOp P × Report)}
    (run : exec (countedStep hash shardMask) (empty shardMask maxBytes) tape = some c) :
    Runs DocStore.Step (fun _ => none) tape (c.store hash shardMask) ∧
      ∀ call c', c.countedStep hash shardMask call = some c' → ∀ key p,
        (c.store hash shardMask).effect call.1 key = some p → 0 < p.pending → c'.store hash shardMask key = some p := by
  have sound : c.Sound hash := Reach.invariant (.empty maxBytes) (fun before taken => before.countedStep taken) ⟨tape, run⟩
  refine ⟨?_, fun call c' taken key p held pinned => (sound.store_step taken).pinned_stays held pinned⟩
  exact runs_of_exec (P := Sound hash) (store hash shardMask) (.empty maxBytes)
    (fun before taken => before.countedStep taken) (fun before taken => before.store_step taken) run

/-- Two keys under one hash: one is read, persisted and erased while the other stays pinned. -/
theorem cache_refines_doc_store_colliding :
    ∃ c : FlatCache ℕ, Runs DocStore.Step (fun _ => none)
      [(CacheOp.put (1, [7]) ⟨[1], 0, 0, 0, false⟩ 10, .done), (.put (1, [8]) ⟨[2], 0, 0, 0, false⟩ 11, .done),
        (.getCopy (1, [7]) 4096, .copied (.hit ⟨0, [1], 0, 0, 0, false⟩)), (.markPersisted (1, [7]) 5, .done),
        (.get (1, [7]), .got none), (.erase (1, [7]), .done)] (c.store (fun _ => 3) 0) := by
  refine (?_ : ∃ c, exec (countedStep (fun _ => 3) 0) (empty 0 100) _ = some c ∧ True).imp
    fun c run => (cache_refines_doc_store run.1).1
  exact exists_exec (by decide +kernel)

end FlatCache

end FluxKV.Cache
