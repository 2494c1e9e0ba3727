import FluxKV.Cache.Shard
import Mathlib.Algebra.BigOperators.Group.List.Basic

/-! # The S3-FIFO cache

The cache spreads its keys over shards by the high half of their hash. A cache carries the proof that
every entry sits in the shard its hash names, so `contents` sees each of them. The hash is an arbitrary
function here: keys may collide. Each operation below is one critical section of the source, and comes
with what it does to the contract's map.
-/

namespace FluxKV.Cache

open Engine Protocol Counting

section Placement

variable (hash : DocKey → UInt64) (shardMask : UInt64)

def shardFor (key : DocKey) : ℕ := (hash key >>> 32 &&& shardMask).toNat

/-- `S3FifoCache`. -/
structure S3FifoCache where
  shards : ℕ → Shard
  placed : ∀ i key, (shards i).contents key ≠ none → shardFor hash shardMask key = i

end Placement

namespace S3FifoCache

variable {hash : DocKey → UInt64} {shardMask : UInt64} (c : S3FifoCache hash shardMask)

/-- The constructor: empty shards that split the byte budget evenly. -/
def empty (hash : DocKey → UInt64) (shardMask : UInt64) (maxBytes : ℕ) : S3FifoCache hash shardMask where
  shards := fun _ => .empty (maxBytes / (shardMask.toNat + 1))
  placed := fun _ _ held => (held rfl).elim

def shard (key : DocKey) : Shard := c.shards (shardFor hash shardMask key)

/-- The cache as the contract sees it. -/
def contents : Contents DocKey Version := fun key => (c.shard key).contents key

theorem contents_eq_of_shardFor {key key' : DocKey}
    (same : shardFor hash shardMask key' = shardFor hash shardMask key) :
    c.contents key' = (c.shard key).contents key' := by
  simp only [contents, shard, same]

/-- Replace the shard of one key, where the new shard does no more than alter that key and evict. -/
def alterShard (key : DocKey) (next : Shard) (change : Option (Pinned Version) → Option (Pinned Version))
    (evicts : ((c.shard key).contents.alter key change).Evicts next.contents) : S3FifoCache hash shardMask where
  shards := Function.update c.shards (shardFor hash shardMask key) next
  placed := by
    intro i key' held
    by_cases same : i = shardFor hash shardMask key
    · subst same
      rw [Function.update_self] at held
      obtain ⟨p, held⟩ := Option.ne_none_iff_exists'.mp held
      have before := evicts.held held
      by_cases equal : key' = key
      · rw [equal]
      · rw [Contents.alter_of_ne _ _ equal] at before
        exact c.placed _ key' (by rw [← shard, before]; exact Option.some_ne_none p)
    · rw [Function.update_of_ne same] at held
      exact c.placed i key' held

theorem alterShard_evicts (key : DocKey) (next : Shard)
    (change : Option (Pinned Version) → Option (Pinned Version))
    (evicts : ((c.shard key).contents.alter key change).Evicts next.contents) :
    (c.contents.alter key change).Evicts (c.alterShard key next change evicts).contents := by
  intro key'
  by_cases same : shardFor hash shardMask key' = shardFor hash shardMask key
  · have after : (c.alterShard key next change evicts).contents key' = next.contents key' := by
      simp only [contents, shard, alterShard, same, Function.update_self]
    have before : c.contents.alter key change key' = (c.shard key).contents.alter key change key' := by
      by_cases equal : key' = key
      · subst equal
        simp only [Contents.alter_self, contents]
      · rw [Contents.alter_of_ne _ _ equal, Contents.alter_of_ne _ _ equal, c.contents_eq_of_shardFor same]
    have pending : (c.contents.alter key change).pending key' =
        ((c.shard key).contents.alter key change).pending key' := by
      simp only [Contents.pending, before]
    rw [after, before, pending]
    exact evicts key'
  · have other : key' ≠ key := fun equal => same (congrArg _ equal)
    refine .inl ?_
    rw [Contents.alter_of_ne _ _ other]
    simp only [contents, shard, alterShard, Function.update_of_ne same]

/-- Replace the shard of one key by a trimmed one. -/
def trimShard (key : DocKey) (next : Shard) (trims : (c.shard key).Trims next) : S3FifoCache hash shardMask :=
  c.alterShard key next id (by rw [Contents.alter_id]; exact trims.1)

theorem trimShard_evicts (key : DocKey) (next : Shard) (trims : (c.shard key).Trims next) :
    c.contents.Evicts (c.trimShard key next trims).contents := by
  have evicts := c.alterShard_evicts key next id (by rw [Contents.alter_id]; exact trims.1)
  rwa [Contents.alter_id] at evicts

def put (key : DocKey) (content : Content) (sharedCapacity : Option ℕ) : S3FifoCache hash shardMask :=
  c.alterShard key ((c.shard key).putEntry hash key content sharedCapacity) _
    (Shard.putEntry_evicts hash (c.shard key) key content sharedCapacity)

def fillDoorkeeper (key : DocKey) : Bool × S3FifoCache hash shardMask :=
  (((c.shard key).fillDoorkeeper hash key).1,
    c.trimShard key ((c.shard key).fillDoorkeeper hash key).2 (Shard.trims_fillDoorkeeper ..))

def fillInsert (key : DocKey) (doc : Version) : S3FifoCache hash shardMask :=
  c.alterShard key ((c.shard key).fillInsert hash key doc) _ (Shard.fillInsert_evicts hash (c.shard key) key doc)

/-- The shared section of `MarkPersisted`, and whether the trim section follows. -/
def markPersisted (key : DocKey) (seqno : ℕ) : S3FifoCache hash shardMask × Bool :=
  (c.alterShard key ((c.shard key).markPersisted key seqno).1 _
    (.of_eq (Shard.contents_markPersisted (c.shard key) key seqno)), ((c.shard key).markPersisted key seqno).2)

/-- The trim section of `MarkPersisted`. -/
def trim (key : DocKey) : S3FifoCache hash shardMask :=
  c.trimShard key ((c.shard key).evict hash) (Shard.trims_evict ..)

def erase (key : DocKey) : S3FifoCache hash shardMask :=
  c.alterShard key ((c.shard key).erase key) _ (.of_eq (Shard.contents_erase (c.shard key) key))

def touch (key : DocKey) : S3FifoCache hash shardMask :=
  c.trimShard key ((c.shard key).touch key) (Shard.trims_touch ..)

/-- One round of `SetBudget`, which visits the shards in turn. -/
def setBudget (i maxBytes : ℕ) : S3FifoCache hash shardMask where
  shards := Function.update c.shards i ((c.shards i).setBudget hash (maxBytes / (shardMask.toNat + 1)))
  placed := by
    intro j key held
    by_cases same : j = i
    · subst same
      rw [Function.update_self] at held
      obtain ⟨p, held⟩ := Option.ne_none_iff_exists'.mp held
      have before := (Shard.trims_setBudget hash (c.shards j) _).1.held held
      exact c.placed j key (by rw [before]; exact Option.some_ne_none p)
    · rw [Function.update_of_ne same] at held
      exact c.placed j key held

theorem put_evicts (key : DocKey) (content : Content) (sharedCapacity : Option ℕ) :
    (c.contents.put key ⟨0, content⟩).Evicts (c.put key content sharedCapacity).contents :=
  c.alterShard_evicts _ _ _ _

theorem fillDoorkeeper_evicts (key : DocKey) : c.contents.Evicts (c.fillDoorkeeper key).2.contents :=
  c.trimShard_evicts _ _ (Shard.trims_fillDoorkeeper ..)

theorem fillInsert_evicts (key : DocKey) (doc : Version) :
    (c.contents.fill key doc).Evicts (c.fillInsert key doc).contents :=
  c.alterShard_evicts _ _ _ _

theorem markPersisted_evicts (key : DocKey) (seqno : ℕ) :
    (c.contents.unpin key (Shard.noteSeqno seqno)).Evicts (c.markPersisted key seqno).1.contents :=
  c.alterShard_evicts _ _ _ (.of_eq (Shard.contents_markPersisted (c.shard key) key seqno))

/-- The shared section of `MarkPersisted` evicts nothing, so its key stays resident. -/
theorem contents_markPersisted_self (key : DocKey) (seqno : ℕ) :
    (c.markPersisted key seqno).1.contents key = c.contents.unpin key (Shard.noteSeqno seqno) key := by
  have own : (c.markPersisted key seqno).1.contents key = ((c.shard key).markPersisted key seqno).1.contents key := by
    simp only [contents, shard, markPersisted, alterShard, Function.update_self]
  rw [own, Shard.contents_markPersisted, Contents.unpin, Contents.unpin, Contents.alter_self, Contents.alter_self]
  rfl

theorem trim_evicts (key : DocKey) : c.contents.Evicts (c.trim key).contents := c.trimShard_evicts _ _ _

theorem erase_evicts (key : DocKey) : (c.contents.erase key).Evicts (c.erase key).contents :=
  c.alterShard_evicts _ _ _ _

theorem touch_evicts (key : DocKey) : c.contents.Evicts (c.touch key).contents := c.trimShard_evicts _ _ _

theorem setBudget_evicts (i maxBytes : ℕ) : c.contents.Evicts (c.setBudget i maxBytes).contents := by
  intro key
  by_cases same : shardFor hash shardMask key = i
  · subst same
    have evicts := (Shard.trims_setBudget hash (c.shard key) (maxBytes / (shardMask.toNat + 1))).1 key
    simpa only [contents, Contents.pending, shard, setBudget, Function.update_self] using evicts
  · exact .inl (by simp only [contents, shard, setBudget, Function.update_of_ne same])

/-- Every shard counts its pinned entries exactly. -/
def Counted : Prop := ∀ i, (c.shards i).Counted

/-- The sum `GetStats` reports. -/
def pendingItems : ℕ := ((List.range (shardMask.toNat + 1)).map fun i => (c.shards i).pendingItems).sum

variable {c}

theorem Counted.alterShard (counted : c.Counted) {key : DocKey} {next : Shard}
    {change : Option (Pinned Version) → Option (Pinned Version)}
    (evicts : ((c.shard key).contents.alter key change).Evicts next.contents)
    (exact : next.Counted) : (c.alterShard key next change evicts).Counted := by
  intro i
  by_cases same : i = shardFor hash shardMask key
  · subst same
    simpa only [S3FifoCache.alterShard, Function.update_self] using exact
  · simpa only [S3FifoCache.alterShard, Function.update_of_ne same] using counted i

theorem Counted.trimShard (counted : c.Counted) {key : DocKey} {next : Shard} (trims : (c.shard key).Trims next) :
    (c.trimShard key next trims).Counted :=
  counted.alterShard _ (Shard.Counted.of_trims (counted _) trims)

/-- The counter stays right as long as the pins of the entry do not wrap. -/
theorem Counted.put (counted : c.Counted) {key : DocKey} (content : Content) (sharedCapacity : Option ℕ)
    (few : c.contents.pending key + 1 < 2 ^ 32) : (c.put key content sharedCapacity).Counted :=
  counted.alterShard _ (Shard.Counted.putEntry hash (counted _) content sharedCapacity few)

theorem Counted.fillInsert (counted : c.Counted) (key : DocKey) (doc : Version) : (c.fillInsert key doc).Counted :=
  counted.alterShard _ (Shard.Counted.fillInsert hash (counted _) key doc)

theorem Counted.erase (counted : c.Counted) (key : DocKey) : (c.erase key).Counted :=
  counted.alterShard _ (Shard.Counted.erase (counted _) key)

/-- The counter stays right as long as the entry that is unpinned was pinned. -/
theorem Counted.markPersisted (counted : c.Counted) {key : DocKey} (seqno : ℕ)
    (pinned : 0 < c.contents.pending key) : (c.markPersisted key seqno).1.Counted :=
  counted.alterShard (.of_eq (Shard.contents_markPersisted (c.shard key) key seqno))
    (Shard.Counted.markPersisted (counted _) seqno pinned)

theorem empty_counted (maxBytes : ℕ) : (empty hash shardMask maxBytes).Counted :=
  fun _ => Shard.empty_counted _

theorem Counted.setBudget (counted : c.Counted) (i maxBytes : ℕ) : (c.setBudget i maxBytes).Counted := by
  intro j
  by_cases same : j = i
  · subst same
    simpa only [S3FifoCache.setBudget, Function.update_self] using (counted j).of_trims (Shard.trims_setBudget ..)
  · simpa only [S3FifoCache.setBudget, Function.update_of_ne same] using counted j

/-- With no key pinned, the counter of every shard is zero. -/
theorem Counted.pendingItems_eq_zero (counted : c.Counted) (unpinned : ∀ key, c.contents.pending key = 0) :
    c.pendingItems = 0 := by
  rw [pendingItems, List.sum_eq_zero]
  intro items member
  obtain ⟨i, _, rfl⟩ := List.mem_map.mp member
  apply Contents.CountsPinned.eq_zero (counted i)
  intro key
  by_cases held : (c.shards i).contents key = none
  · exact Contents.pending_eq_zero held
  · obtain rfl := c.placed i key held
    exact unpinned key

end S3FifoCache

/-- `Bucket::GetCache`: a server with `--cache-size 0` has no cache, and its callers then skip it. -/
structure BucketCache (hash : DocKey → UInt64) (shardMask : UInt64) where
  docCache : Option (S3FifoCache hash shardMask)

namespace BucketCache

variable {hash : DocKey → UInt64} {shardMask : UInt64}

def start (hash : DocKey → UInt64) (shardMask : UInt64) (cacheSize : ℕ) : BucketCache hash shardMask :=
  ⟨if cacheSize = 0 then none else some (.empty hash shardMask cacheSize)⟩

variable (b : BucketCache hash shardMask)

def contents : Contents DocKey Version := fun key => b.docCache.bind fun c => c.contents key

def map (op : S3FifoCache hash shardMask → S3FifoCache hash shardMask) : BucketCache hash shardMask :=
  ⟨b.docCache.map op⟩

def put (key : DocKey) (content : Content) (sharedCapacity : Option ℕ) : BucketCache hash shardMask :=
  b.map fun c => c.put key content sharedCapacity

def fillDoorkeeper (key : DocKey) : Bool × BucketCache hash shardMask :=
  (b.docCache.any fun c => (c.fillDoorkeeper key).1, b.map fun c => (c.fillDoorkeeper key).2)

def fillInsert (key : DocKey) (doc : Version) : BucketCache hash shardMask := b.map fun c => c.fillInsert key doc

def markPersisted (key : DocKey) (seqno : ℕ) : BucketCache hash shardMask × Bool :=
  (b.map fun c => (c.markPersisted key seqno).1, b.docCache.any fun c => (c.markPersisted key seqno).2)

def trim (key : DocKey) : BucketCache hash shardMask := b.map fun c => c.trim key

def erase (key : DocKey) : BucketCache hash shardMask := b.map fun c => c.erase key

def touch (key : DocKey) : BucketCache hash shardMask := b.map fun c => c.touch key

def setBudget (i maxBytes : ℕ) : BucketCache hash shardMask := b.map fun c => c.setBudget i maxBytes

def pendingItems : ℕ := (b.docCache.map S3FifoCache.pendingItems).getD 0

def Counted : Prop := ∀ c ∈ b.docCache, c.Counted

theorem isSome_map (op : S3FifoCache hash shardMask → S3FifoCache hash shardMask) :
    (b.map op).docCache.isSome = b.docCache.isSome := Option.isSome_map

theorem isSome_start {cacheSize : ℕ} (positive : 0 < cacheSize) : (start hash shardMask cacheSize).docCache.isSome := by
  rw [start, if_neg positive.ne']
  rfl

theorem contents_start (cacheSize : ℕ) (key : DocKey) : (start hash shardMask cacheSize).contents key = none := by
  unfold start
  split <;> rfl

theorem counted_start (cacheSize : ℕ) : (start hash shardMask cacheSize).Counted := by
  intro c member
  unfold start at member
  split at member
  · cases member
  · obtain rfl := Option.some.inj member
    exact S3FifoCache.empty_counted cacheSize

/-- Without a cache there is nothing to evict, and nothing to alter unless the operation pins. -/
theorem map_evicts {op : S3FifoCache hash shardMask → S3FifoCache hash shardMask} {key : DocKey}
    {change : Option (Pinned Version) → Option (Pinned Version)}
    (evicts : ∀ c : S3FifoCache hash shardMask, (c.contents.alter key change).Evicts (op c).contents)
    (idle : ((change none).map Pinned.pending).getD 0 = 0) :
    (b.contents.alter key change).Evicts (b.map op).contents := by
  obtain ⟨_ | c⟩ := b
  · intro k
    refine .inr ⟨rfl, ?_⟩
    by_cases same : k = key
    · subst same
      simpa [Contents.pending, contents] using idle
    · exact Contents.pending_alter_of_ne _ _ same
  · exact evicts c

theorem map_trims {op : S3FifoCache hash shardMask → S3FifoCache hash shardMask}
    (evicts : ∀ c : S3FifoCache hash shardMask, c.contents.Evicts (op c).contents) :
    b.contents.Evicts (b.map op).contents := by
  obtain ⟨_ | c⟩ := b
  · exact .refl _
  · exact evicts c

theorem fillDoorkeeper_evicts (key : DocKey) : b.contents.Evicts (b.fillDoorkeeper key).2.contents :=
  b.map_trims fun c => c.fillDoorkeeper_evicts key

theorem fillInsert_evicts (key : DocKey) (doc : Version) :
    (b.contents.fill key doc).Evicts (b.fillInsert key doc).contents :=
  b.map_evicts (fun c => c.fillInsert_evicts key doc) rfl

theorem markPersisted_evicts (key : DocKey) (seqno : ℕ) :
    (b.contents.unpin key (Shard.noteSeqno seqno)).Evicts (b.markPersisted key seqno).1.contents :=
  b.map_evicts (fun c => c.markPersisted_evicts key seqno) rfl

theorem contents_markPersisted_self (key : DocKey) (seqno : ℕ) :
    (b.markPersisted key seqno).1.contents key = b.contents.unpin key (Shard.noteSeqno seqno) key := by
  obtain ⟨_ | c⟩ := b
  · rw [Contents.unpin, Contents.alter_self]
    rfl
  · exact c.contents_markPersisted_self key seqno

theorem trim_evicts (key : DocKey) : b.contents.Evicts (b.trim key).contents :=
  b.map_trims fun c => c.trim_evicts key

theorem erase_evicts (key : DocKey) : (b.contents.erase key).Evicts (b.erase key).contents :=
  b.map_evicts (fun c => c.erase_evicts key) rfl

theorem touch_evicts (key : DocKey) : b.contents.Evicts (b.touch key).contents :=
  b.map_trims fun c => c.touch_evicts key

theorem setBudget_evicts (i maxBytes : ℕ) : b.contents.Evicts (b.setBudget i maxBytes).contents :=
  b.map_trims fun c => c.setBudget_evicts i maxBytes

/-- What is held after a put was put or held before. -/
theorem held_of_put {key k : DocKey} {content : Content} {sharedCapacity : Option ℕ} {p : Pinned Version}
    (held : (b.put key content sharedCapacity).contents k = some p) : b.contents.put key ⟨0, content⟩ k = some p := by
  obtain ⟨_ | c⟩ := b
  · cases held
  · exact (c.put_evicts key content sharedCapacity).held held

theorem pending_put (cached : b.docCache.isSome) (key : DocKey) (content : Content) (sharedCapacity : Option ℕ)
    (k : DocKey) : (b.put key content sharedCapacity).contents.pending k =
      if key = k then fetchAdd 32 (b.contents.pending k) 1 else b.contents.pending k := by
  obtain ⟨_ | c⟩ := b
  · cases cached
  · refine ((c.put_evicts key content sharedCapacity).pending k).trans ?_
    by_cases same : key = k
    · subst same
      rw [Contents.pending_put_self, if_pos rfl]
      rfl
    · rw [if_neg same]
      exact Contents.pending_alter_of_ne _ _ (Ne.symm same)

theorem pending_erase (key k : DocKey) :
    (b.erase key).contents.pending k = if key = k then 0 else b.contents.pending k := by
  rw [(b.erase_evicts key).pending]
  by_cases same : key = k
  · subst same
    rw [Contents.pending_erase_self, if_pos rfl]
  · rw [if_neg same]
    exact Contents.pending_alter_of_ne _ _ (Ne.symm same)

theorem pending_markPersisted {key : DocKey} (seqno : ℕ) (pinned : 0 < b.contents.pending key) (k : DocKey) :
    (b.markPersisted key seqno).1.contents.pending k = b.contents.pending k - if key = k then 1 else 0 := by
  rw [(b.markPersisted_evicts key seqno).pending]
  by_cases same : key = k
  · subst same
    rw [Contents.pending_unpin_self _ pinned, if_pos rfl]
  · rw [if_neg same]
    exact Contents.pending_alter_of_ne _ _ (Ne.symm same)

theorem pending_fillInsert (key : DocKey) (doc : Version) (k : DocKey) :
    (b.fillInsert key doc).contents.pending k = b.contents.pending k := by
  rw [(b.fillInsert_evicts key doc).pending, Contents.pending_fill]

variable {b}

theorem Counted.map {op : S3FifoCache hash shardMask → S3FifoCache hash shardMask} (counted : b.Counted)
    (keeps : ∀ c ∈ b.docCache, c.Counted → (op c).Counted) : (b.map op).Counted := by
  intro _ member
  obtain ⟨c, inside, rfl⟩ := Option.mem_map.mp member
  exact keeps c inside (counted c inside)

/-- The pins of a cache that is there. -/
theorem pending_of_mem {c : S3FifoCache hash shardMask} (member : c ∈ b.docCache) (key : DocKey) :
    b.contents.pending key = c.contents.pending key := by
  simp only [Contents.pending, contents, Option.mem_def.mp member, Option.bind_some]

theorem Counted.pendingItems_eq_zero (counted : b.Counted) (unpinned : ∀ key, b.contents.pending key = 0) :
    b.pendingItems = 0 := by
  obtain ⟨_ | c⟩ := b
  · rfl
  · exact (counted c rfl).pendingItems_eq_zero unpinned

end BucketCache

end FluxKV.Cache
