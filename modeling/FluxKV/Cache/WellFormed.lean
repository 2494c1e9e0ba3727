import FluxKV.Cache.DocStore

/-! # The memory of a shard is well formed

`WellFormed` says of a shard's memory alone what its hand-written updates must keep: the links of the
two queues, their ends, counts and bytes, the index, the ghost queue beside its set, and the number of
pinned entries. All of it holds in every run in which no acknowledgement comes for an unpinned entry
and no entry gathers 2^32 pins, which is where the 32 bits of its count end.
-/

namespace FluxKV.Cache

open Engine Protocol Counting Machine IntrusiveList

namespace FlatShard

variable {P : Type*} (hash : DocKey → UInt64)

def pinnedAt (f : FlatShard P) (p : P) : Bool := (f.heap p).any fun n => decide (0 < n.pending)

/-- The two queues are these lists, from the tail to the head, and everything else agrees with them. -/
structure WellFormed (f : FlatShard P) (items : Queue → List P) : Prop where
  chain : ∀ q, Chain f.links (f.fifos q).ends (items q)
  disjoint : (items .small).Disjoint (items .main)
  counts : ∀ q, (f.fifos q).count = (items q).length
  bytes : ∀ q, (f.fifos q).bytes = ((items q).map f.chargeAt).sum
  queue : ∀ q, ∀ p ∈ items q, ∃ n, f.heap p = some n ∧ n.queue = q
  live : ∀ p n, f.heap p = some n → p ∈ items n.queue
  index : ∀ h p, f.index.Mem h p ↔ ∃ q, p ∈ items q ∧ ∃ n, f.heap p = some n ∧ hash n.key = h
  indexed : f.index.Sound
  keys : ∀ p p' n n', f.heap p = some n → f.heap p' = some n' → n.key = n'.key → p = p'
  freq : ∀ p n, f.heap p = some n → n.freq ≤ kMaxFreq
  pendingItems : f.pendingItems = (items .small ++ items .main).countP f.pinnedAt
  ghostSet : ∀ h, h ∈ f.ghostSet ↔ h ∈ f.ghost
  ghost : f.ghost.Nodup

variable {hash} {f : FlatShard P} {s : Shard} {items : Queue → List P} {p : P}

/-- The memory represents a map whose pinned entries are counted. -/
def Ordered (hash : DocKey → UInt64) (f : FlatShard P) : Prop :=
  ∃ s items, Represents hash f s items none ∧ s.Counted

/-- The keys of the pinned entries on the queues are those that the map holds pinned. -/
private theorem Represents.mem_pinned (rel : Represents hash f s items none) (key : DocKey) :
    key ∈ ((items .small ++ items .main).filter f.pinnedAt).map f.keyAt ↔ 0 < s.contents.pending key := by
  simp only [List.mem_map, List.mem_filter, List.mem_append]
  constructor
  · rintro ⟨p, ⟨_, pinned⟩, rfl⟩
    obtain ⟨n, held, positive⟩ := (Option.any_eq_true _ _).mp pinned
    rw [keyAt_eq held, Contents.pending, Shard.contents, rel.entries p n held]
    exact UInt32.lt_iff_toNat_lt.mp (of_decide_eq_true positive)
  · intro positive
    obtain ⟨pinned, there, _⟩ := Contents.exists_of_pending_pos positive
    obtain ⟨e, indexed, rfl⟩ := Option.map_eq_some_iff.mp there
    obtain ⟨p, n, held, rfl⟩ := rel.resident key e indexed
    obtain rfl : n.entry = e := Option.some_inj.mp ((rel.entries p n held).symm.trans indexed)
    have listed := (rel.listed p n held).resolve_right (by simp)
    rw [Contents.pending_of_eq there] at positive
    refine ⟨p, ⟨?_, ?_⟩, keyAt_eq held⟩
    · cases on : n.queue with
      | small => exact .inl (on ▸ listed)
      | main => exact .inr (on ▸ listed)
    · exact (Option.any_eq_true _ _).mpr ⟨n, held, decide_eq_true (UInt32.lt_iff_toNat_lt.mpr positive)⟩

private theorem Represents.nodup (rel : Represents hash f s items none) :
    (items .small ++ items .main).Nodup := by
  refine List.Nodup.append (rel.chain .small).nodup (rel.chain .main).nodup ?_
  intro p small main
  cases rel.eq_of_mem small main

/-- The counter of pinned entries is their number. -/
private theorem Represents.pendingItems_eq (rel : Represents hash f s items none) (counted : s.Counted) :
    f.pendingItems = (items .small ++ items .main).countP f.pinnedAt := by
  obtain ⟨keys, member, card⟩ := counted
  have distinct : (((items .small ++ items .main).filter f.pinnedAt).map f.keyAt).Nodup := by
    refine List.Nodup.map_on ?_ (rel.nodup.filter _)
    intro p first p' second same
    obtain ⟨n, held, _⟩ := (Option.any_eq_true _ _).mp (List.mem_filter.mp first).2
    obtain ⟨n', held', _⟩ := (Option.any_eq_true _ _).mp (List.mem_filter.mp second).2
    rw [keyAt_eq held, keyAt_eq held'] at same
    exact rel.distinct p p' n n' held held' same
  have same : keys = (((items .small ++ items .main).filter f.pinnedAt).map f.keyAt).toFinset := by
    ext key
    rw [member, List.mem_toFinset, rel.mem_pinned]
  rw [← rel.pendingItems, card, same, List.toFinset_card_of_nodup distinct, List.length_map, List.countP_eq_length_filter]

theorem Ordered.wellFormed (ordered : f.Ordered hash) : ∃ items, f.WellFormed hash items := by
  obtain ⟨s, items, rel, counted⟩ := ordered
  have listed : ∀ p n, f.heap p = some n → p ∈ items n.queue :=
    fun p n held => (rel.listed p n held).resolve_right (by simp)
  refine ⟨items, ?_⟩
  constructor
  · exact rel.chain
  · exact (List.nodup_append'.mp rel.nodup).2.2
  · exact rel.counts
  · exact rel.bytes
  · exact rel.home
  · exact listed
  · intro h p
    rw [rel.members]
    constructor
    · rintro ⟨n, held, under⟩
      exact ⟨n.queue, listed p n held, n, held, under⟩
    · rintro ⟨_, _, n, held, under⟩
      exact ⟨n, held, under⟩
  · exact rel.sound
  · exact rel.distinct
  · exact rel.freq
  · exact rel.pendingItems_eq counted
  · intro h
    rw [rel.ghostSet, List.mem_toFinset]
  · exact rel.ghostNodup

section Calls

variable [DecidableEq P]

theorem Ordered.putEntry (ordered : f.Ordered hash) (vacant : f.heap p = none) {key : DocKey} (content : Content)
    (sharedCapacity : Option ℕ) (few : (f.docs hash).pending key + 1 < 2 ^ 32) :
    (f.putEntry hash p key content sharedCapacity).Ordered hash := by
  obtain ⟨s, items, rel, counted⟩ := ordered
  obtain ⟨items', after⟩ := rel.putEntry vacant key content sharedCapacity
  rw [← rel.contents_eq] at few
  exact ⟨_, items', after, counted.putEntry hash content sharedCapacity few⟩

theorem Ordered.putIfAbsent (ordered : f.Ordered hash) (vacant : f.heap p = none) (doorkeeper : Bool) (key : DocKey)
    (doc : Version) : (f.putIfAbsent hash doorkeeper p key doc).Ordered hash := by
  obtain ⟨s, items, rel, counted⟩ := ordered
  obtain ⟨items', filled⟩ := rel.putIfAbsent vacant doorkeeper key doc
  refine ⟨_, items', filled, ?_⟩
  unfold Shard.putIfAbsent
  split_ifs
  · exact counted
  · exact counted.of_trims ⟨.of_eq (Shard.contents_ghostAdd ..), Shard.pendingItems_ghostAdd ..⟩
  · exact counted.fillInsert hash key doc

theorem Ordered.markPersisted (ordered : f.Ordered hash) (key : DocKey) (seqno : ℕ)
    (pinned : ∀ held, f.docs hash key = some held → held.pending ≠ 0) : (f.markPersisted hash key seqno).Ordered hash := by
  obtain ⟨s, items, rel, counted⟩ := ordered
  obtain ⟨items', marked⟩ := rel.markPersisted key seqno
  refine ⟨_, items', marked, ?_⟩
  rw [← rel.contents_eq] at pinned
  cases there : s.index key with
  | none =>
    rw [s.persist_of_absent there]
    exact counted
  | some e =>
    have held : s.contents key = some e.pinned := by rw [Shard.contents, there, Option.map_some]
    have positive : 0 < s.contents.pending key := by
      rw [Contents.pending_of_eq held]
      exact Nat.pos_of_ne_zero (pinned _ held)
    have after := counted.markPersisted seqno positive
    unfold Shard.persist
    split
    · exact after.of_trims (Shard.trims_evict hash _)
    · exact after

theorem Ordered.erase (ordered : f.Ordered hash) (key : DocKey) : (f.erase hash key).Ordered hash := by
  obtain ⟨s, items, rel, counted⟩ := ordered
  obtain ⟨items', erased⟩ := rel.erase key
  exact ⟨_, items', erased, counted.erase key⟩

theorem Ordered.get (ordered : f.Ordered hash) (key : DocKey) : (f.get hash key).1.Ordered hash := by
  unfold FlatShard.get
  cases found : f.lookup hash key with
  | none => exact ordered
  | some entry =>
    obtain ⟨s, items, rel, counted⟩ := ordered
    exact ⟨_, items, rel.touch (rel.lookup_eq_some.mp found).1, counted.of_trims (Shard.trims_touch s _)⟩

theorem Ordered.setBudget (ordered : f.Ordered hash) (perShard : ℕ) : (f.setBudget hash perShard).Ordered hash := by
  obtain ⟨s, items, rel, counted⟩ := ordered
  obtain ⟨items', evicted⟩ := (rel.setBudget perShard (perShard * kSmallPercent % 2 ^ 64 / 100)).evict
  refine ⟨_, items', evicted, .of_trims ?_ (Shard.trims_evict hash _)⟩
  exact counted

end Calls

end FlatShard

namespace FlatCache

variable {P : Type*} [DecidableEq P] (hash : DocKey → UInt64) (shardMask : UInt64)

variable {hash shardMask} {c c' : FlatCache P}

omit [DecidableEq P] in
private theorem forall_setShard {Q : FlatShard P → Prop} {key : DocKey} {next : FlatShard P}
    (here : Q next) (others : ∀ i, Q (c.shards i)) (i : ℕ) : Q ((c.setShard hash shardMask key next).shards i) :=
  forall_update (P := fun _ => Q) here others i

/-- A call keeps every shard ordered. -/
theorem ordered_step {call : CacheOp P × Report} (ordered : ∀ i, (c.shards i).Ordered hash)
    (taken : c.countedStep hash shardMask call = some c') (i : ℕ) : (c'.shards i).Ordered hash := by
  obtain ⟨few, taken⟩ := restrict_eq_some.mp taken
  obtain ⟨known, taken⟩ := restrict_eq_some.mp taken
  obtain ⟨able, _, rfl⟩ := step_eq_some hash shardMask taken
  obtain ⟨op, report⟩ := call
  have here := fun key => ordered (shardFor hash shardMask key)
  cases op with
  | put key content address =>
    exact forall_setShard ((here key).putEntry (Option.isNone_iff_eq_none.mp able) content none few) ordered i
  | putShared key content capacity address =>
    exact forall_setShard ((here key).putEntry (Option.isNone_iff_eq_none.mp able) content _ few) ordered i
  | putIfAbsent doorkeeper key seqno value flags expiry datatype address =>
    exact forall_setShard ((here key).putIfAbsent (Option.isNone_iff_eq_none.mp able) doorkeeper key _) ordered i
  | markPersisted key seqno =>
    exact forall_setShard ((here key).markPersisted key seqno known) ordered i
  | erase key => exact forall_setShard ((here key).erase key) ordered i
  | get key => exact forall_setShard ((here key).get key) ordered i
  | getCopy key bufCap =>
    refine forall_setShard ?_ ordered i
    rw [FlatShard.getCopy_eq]
    exact (here key).get key
  | setBudget maxBytes =>
    change (if i ≤ shardMask.toNat then _ else _ : FlatShard P).Ordered hash
    split
    · exact (ordered i).setBudget _
    · exact ordered i

/-- In every run of that kind the memory of every shard is well formed. -/
theorem shards_well_formed {maxBytes : ℕ}
    (reached : Reach (countedStep hash shardMask) (empty shardMask maxBytes) c) (i : ℕ) :
    ∃ items, (c.shards i).WellFormed hash items := by
  have ordered : ∀ i, (c.shards i).Ordered hash := by
    refine Reach.invariant (P := fun c : FlatCache P => ∀ i, (c.shards i).Ordered hash) (fun i => ?_)
      (fun before taken => ordered_step before taken) reached
    exact ⟨_, _, .empty hash (maxBytes / (shardMask.toNat + 1)), Shard.empty_counted (maxBytes / (shardMask.toNat + 1))⟩
  exact (ordered i).wellFormed

/-- Two keys under one hash, one of them pinned twice, persisted once and erased. -/
theorem shards_well_formed_colliding :
    ∃ c : FlatCache ℕ, ((c.shards 0).pendingItems, (c.shards 0).ghost) = (1, []) ∧
      ∃ items, (c.shards 0).WellFormed (fun _ => 3) items := by
  obtain ⟨c, reached, observed⟩ : ∃ c, Reach (countedStep (fun _ => 3) 0) (empty 0 100 : FlatCache ℕ) c ∧
      ((c.shards 0).pendingItems, (c.shards 0).ghost) = (1, []) :=
    exists_reach [(.put (1, [7]) ⟨[1], 0, 0, 0, false⟩ 10, .done), (.put (1, [8]) ⟨[2], 0, 0, 0, false⟩ 11, .done),
      (.put (1, [7]) ⟨[3], 0, 0, 0, false⟩ 12, .done), (.markPersisted (1, [7]) 5, .done), (.erase (1, [7]), .done)]
      (by decide +kernel)
  exact ⟨c, observed, shards_well_formed reached 0⟩

section Wrap

/-- One shard, and one key that is put again and again. -/
private abbrev again (p : ℕ) : CacheOp ℕ × Report := (.put (0, []) ⟨[], 0, 0, 0, false⟩ p, .done)

/-- The shard after `pins` puts of the key: nothing else is there, and the key is counted once. -/
private def Gathered (f : FlatShard ℕ) (pins : ℕ) : Prop :=
  ∃ s items, FlatShard.Represents (fun _ => 0) f s items none ∧ (∀ key, key ≠ (0, []) → s.contents key = none) ∧
    s.contents.pending (0, []) = pins % 2 ^ 32 ∧ s.pendingItems = if pins = 0 then 0 else 1

private theorem Gathered.key {f : FlatShard ℕ} {pins : ℕ} (gathered : Gathered f pins) {p : ℕ} {n : Node}
    (held : f.heap p = some n) : n.key = (0, []) ∧ n.pending.toNat = pins % 2 ^ 32 := by
  obtain ⟨s, items, rel, sole, pending, _⟩ := gathered
  have there : s.contents n.key = some n.entry.pinned := by rw [Shard.contents, rel.entries p n held]; rfl
  have key : n.key = (0, []) := by
    by_contra other
    cases (sole n.key other).symm.trans there
  rw [key] at there
  exact ⟨key, (Contents.pending_of_eq there).symm.trans pending⟩

private theorem Gathered.vacant {f : FlatShard ℕ} {pins : ℕ} (gathered : Gathered f pins) : ∃ p, f.heap p = none := by
  by_contra full
  push Not at full
  obtain ⟨n, first⟩ := Option.ne_none_iff_exists'.mp (full 0)
  obtain ⟨n', second⟩ := Option.ne_none_iff_exists'.mp (full 1)
  have same := (gathered.key first).1.trans (gathered.key second).1.symm
  obtain ⟨s, items, rel, _⟩ := gathered
  cases rel.distinct 0 1 n n' first second same

private theorem Gathered.put {f : FlatShard ℕ} {pins p : ℕ} (gathered : Gathered f pins) (vacant : f.heap p = none)
    (below : pins < 2 ^ 32) (content : Content) :
    Gathered (f.putEntry (fun _ => 0) p (0, []) content none) (pins + 1) := by
  obtain ⟨s, items, rel, sole, pending, counted⟩ := gathered
  obtain ⟨items', after⟩ := rel.putEntry vacant (0, []) content none
  have evicts := Shard.putEntry_evicts (fun _ => 0) s (0, []) content none
  rw [Nat.mod_eq_of_lt below] at pending
  refine ⟨_, items', after, fun key other => ?_, ?_, ?_⟩
  · rcases evicts key with same | ⟨gone, _⟩
    · exact same.trans ((Contents.alter_of_ne _ _ other).trans (sole key other))
    · exact gone
  · rw [evicts.pending, Contents.pending_put_self, pending]
    rfl
  · refine ((Shard.trims_evict _ _).2.trans (Shard.pendingItems_insert ..)).trans ?_
    rw [if_neg (Nat.succ_ne_zero pins), pending, counted]
    split_ifs <;> rfl

/-- The next put finds an address and adds a pin. -/
private theorem Gathered.again {c : FlatCache ℕ} {pins : ℕ} (gathered : Gathered (c.shards 0) pins)
    (below : pins < 2 ^ 32) : ∃ p c', c.step (fun _ => 0) 0 (again p) = some c' ∧ Gathered (c'.shards 0) (pins + 1) := by
  obtain ⟨p, vacant⟩ := gathered.vacant
  have free : c.fresh (fun _ => 0) 0 (FlatCache.again p).1 = true := Option.isNone_iff_eq_none.mpr vacant
  refine ⟨p, _, if_pos ⟨free, rfl⟩, ?_⟩
  exact gathered.put vacant below _

private theorem gather (pins : ℕ) (below : pins ≤ 2 ^ 32) : ∃ c : FlatCache ℕ,
    Reach (restrict (Acknowledged (fun _ => 0) 0) (step (fun _ => 0) 0)) (empty 0 0) c ∧ Gathered (c.shards 0) pins := by
  induction pins with
  | zero => exact ⟨_, .refl _ _, _, _, .empty _ _, fun _ _ => rfl, rfl, rfl⟩
  | succ pins ih =>
    obtain ⟨c, reached, gathered⟩ := ih (by omega)
    obtain ⟨p, c', taken, gathered⟩ := gathered.again (by omega)
    exact ⟨c', reached.tail (e := again p) (restrict_eq_some.mpr ⟨trivial, taken⟩), gathered⟩

private theorem Gathered.store {c : FlatCache ℕ} {pins : ℕ} (gathered : Gathered (c.shards 0) pins) :
    (c.store (fun _ => 0) 0).pending (0, []) = pins % 2 ^ 32 := by
  obtain ⟨s, items, rel, _, pending, _⟩ := gathered
  rw [rel.contents_eq] at pending
  exact pending

/-- A key has gathered 2^32 - 1 pins. One more put leaves it with none, which no put of the store does. -/
theorem put_loses_pins : ∃ c c' : FlatCache ℕ, ∃ call : CacheOp ℕ × Report,
    Reach (restrict (Acknowledged (fun _ => 0) 0) (step (fun _ => 0) 0)) (empty 0 0) c ∧
      c.step (fun _ => 0) 0 call = some c' ∧ (∃ p, call = (.put (0, []) ⟨[], 0, 0, 0, false⟩ p, .done)) ∧
      (c.store (fun _ => 0) 0).pending (0, []) = 2 ^ 32 - 1 ∧ (c'.store (fun _ => 0) 0).pending (0, []) = 0 ∧
      ¬ DocStore.Step (c.store (fun _ => 0) 0) call (c'.store (fun _ => 0) 0) := by
  obtain ⟨c, reached, gathered⟩ := gather (2 ^ 32 - 1) (by decide)
  obtain ⟨p, c', taken, wrapped⟩ := gathered.again (by decide)
  refine ⟨c, c', again p, reached, taken, ⟨p, rfl⟩, gathered.store, wrapped.store, fun step => ?_⟩
  have none := wrapped.store
  have effect : (c.store (fun _ => 0) 0).effect (again p).1 (0, []) = some ⟨⟨0, ⟨[], 0, 0, 0, false⟩⟩, 2 ^ 32⟩ := by
    rw [DocStore.effect, DocStore.put, Contents.alter_self, gathered.store]
    rfl
  rw [Contents.pending_of_eq (step.pinned_stays effect (by decide))] at none
  cases none

/-- After 2^32 puts of one key its pins have wrapped to zero, while the entry is still counted. -/
theorem pins_wrap : ∃ c : FlatCache ℕ,
    Reach (restrict (Acknowledged (fun _ => 0) 0) (step (fun _ => 0) 0)) (empty 0 0) c ∧
      (c.shards 0).pendingItems = 1 ∧ (∀ p n, (c.shards 0).heap p = some n → n.pending = 0) ∧
      ∀ items, ¬ (c.shards 0).WellFormed (fun _ => 0) items := by
  obtain ⟨c, reached, gathered⟩ := gather (2 ^ 32) le_rfl
  have unpinned : ∀ p n, (c.shards 0).heap p = some n → n.pending = 0 :=
    fun p n held => UInt32.toNat_inj.mp (gathered.key held).2
  have counted : (c.shards 0).pendingItems = 1 := by
    obtain ⟨s, items, rel, _, _, counted⟩ := gathered
    exact rel.pendingItems.symm.trans counted
  refine ⟨c, reached, counted, unpinned, fun items formed => ?_⟩
  have none : (items .small ++ items .main).countP (c.shards 0).pinnedAt = 0 := by
    rw [List.countP_eq_zero]
    intro p _ pinned
    obtain ⟨n, held, positive⟩ := (Option.any_eq_true _ _).mp pinned
    rw [unpinned p n held] at positive
    cases positive
  have equal := formed.pendingItems
  omega

end Wrap

end FlatCache

end FluxKV.Cache
