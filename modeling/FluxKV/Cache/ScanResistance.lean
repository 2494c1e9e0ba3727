import FluxKV.Cache.Budget

/-! # Scan resistance

`main` is visited only while it holds more than its share of the budget: as long as `small` is past its own
share it is `small` that eviction takes from. Entries that were read at most once and that no write pins leave
`small` for good. So a scan of keys that the shard does not remember, however long and whatever their sizes,
churns `small` and leaves `main` as it was.
-/

namespace FluxKV.Cache

open Engine Machine Counting

namespace FlatShard

variable {P : Type*} [DecidableEq P] (hash : DocKey → UInt64)

/-- The memory is in order, and the share of `small` is part of the budget. -/
def Valid (f : FlatShard P) : Prop := ∃ s items, Represents hash f s items none ∧ f.smallBudget ≤ f.budget

/-- The states in which the eviction loop visits `main`. -/
def mainVisits : ℕ → FlatShard P → List (FlatShard P)
  | 0, _ => []
  | guard + 1, s =>
    if s.bytes ≤ s.budget then []
    else if s.smallBudget < (s.fifos .small).bytes ∧ (s.fifos .small).ends.tail ≠ none then
      mainVisits guard (s.evictSmall hash)
    else if (s.fifos .main).ends.tail ≠ none then s :: mainVisits guard (s.evictMain hash)
    else if (s.fifos .small).ends.tail ≠ none then mainVisits guard (s.evictSmall hash)
    else []

/-- `main` holds more than its share. -/
def PastShare (f : FlatShard P) : Prop := f.budget - f.smallBudget < (f.fifos .main).bytes

/-- `main` is within its share, and nothing on `small` is pinned or was read more than once. -/
structure Cold (f : FlatShard P) : Prop where
  room : (f.fifos .main).bytes ≤ f.budget - f.smallBudget
  idle : ∀ p n, f.heap p = some n → n.queue = .small → n.pending = 0 ∧ n.freq ≤ 1

/-- The same entries are on `main`. -/
def SameMain (f g : FlatShard P) : Prop := ∀ p n, n.queue = .main → (g.heap p = some n ↔ f.heap p = some n)

/-- A read fill, with the address of its entry. -/
structure Fill (P : Type*) where
  key : DocKey
  doc : Version
  address : P

/-- The key is not held, its hash is not remembered, and its entry gets an address of its own. -/
def Fill.Unknown (f : FlatShard P) (x : Fill P) : Prop :=
  f.find hash x.key = none ∧ hash x.key ∉ f.ghostSet ∧ f.heap x.address = none

instance (f : FlatShard P) (x : Fill P) : Decidable (x.Unknown hash f) := inferInstanceAs (Decidable (_ ∧ _ ∧ _))

/-- A scan: fills of keys that the shard neither holds nor remembers. -/
def scan (doorkeeper : Bool) (f : FlatShard P) (x : Fill P) : Option (FlatShard P) :=
  if x.Unknown hash f then some (f.putIfAbsent hash doorkeeper x.address x.key x.doc) else none

variable {hash} {f g : FlatShard P}

omit [DecidableEq P] in
theorem SameMain.trans {k : FlatShard P} (first : f.SameMain g) (second : g.SameMain k) : f.SameMain k :=
  fun p n main => (second p n main).trans (first p n main)

omit [DecidableEq P] in
/-- Eviction turns to `main` when `small` is within its share, and then it is `main` that is past its own. -/
theorem Valid.pastShare (valid : f.Valid hash) (past : ¬ f.bytes ≤ f.budget)
    (rests : ¬ (f.smallBudget < (f.fifos .small).bytes ∧ (f.fifos .small).ends.tail ≠ none)) : f.PastShare := by
  obtain ⟨s, items, rel, share⟩ := valid
  have small : (f.fifos .small).bytes ≤ f.smallBudget := by
    apply Nat.le_of_not_lt
    intro more
    have tail : (f.fifos .small).ends.tail = none := Decidable.not_not.mp fun some => rests ⟨more, some⟩
    rw [(rel.chain .small).tail, List.head?_eq_none_iff] at tail
    have bytes := rel.bytes .small
    rw [tail, List.map_nil, List.sum_nil] at bytes
    omega
  unfold bytes at past
  unfold PastShare
  omega

theorem Valid.evictSmall (valid : f.Valid hash) : (f.evictSmall hash).Valid hash := by
  obtain ⟨s, items, rel, share⟩ := valid
  obtain ⟨items', after⟩ := rel.evictSmall
  obtain ⟨budget, smallBudget⟩ := Shard.evictSmall_budget hash s
  refine ⟨_, items', after, ?_⟩
  rw [← after.budget, ← after.smallBudget, budget, smallBudget, rel.budget, rel.smallBudget]
  exact share

theorem Valid.evictMain (valid : f.Valid hash) : (f.evictMain hash).Valid hash := by
  obtain ⟨s, items, rel, share⟩ := valid
  obtain ⟨items', after⟩ := rel.evictMain
  obtain ⟨budget, smallBudget, _⟩ := Shard.evictMain_budget s
  refine ⟨_, items', after, ?_⟩
  rw [← after.budget, ← after.smallBudget, budget, smallBudget, rel.budget, rel.smallBudget]
  exact share

/-- Every visit to `main` finds it past its share. -/
theorem Valid.mainVisits (guard : ℕ) :
    ∀ {f : FlatShard P}, f.Valid hash → ∀ t ∈ f.mainVisits hash guard, t.PastShare := by
  induction guard with
  | zero =>
    intro f _ t member
    cases member
  | succ guard ih =>
    intro f valid t member
    unfold FlatShard.mainVisits at member
    split_ifs at member with within small main rest
    · cases member
    · exact ih valid.evictSmall t member
    · rcases List.mem_cons.mp member with rfl | later
      · exact valid.pastShare within small
      · exact ih valid.evictMain t later
    · exact ih valid.evictSmall t member
    · cases member

omit [DecidableEq P] in
private theorem ghostAdd_shape (f : FlatShard P) (h : UInt64) :
    ∃ ghost ghostSet, f.ghostAdd h = { f with ghost, ghostSet } := by
  unfold ghostAdd
  split
  · exact ⟨f.ghost, f.ghostSet, rfl⟩
  · exact ⟨_, _, rfl⟩

/-- A cold shard frees what it takes off `small`. -/
theorem Cold.evictSmall (valid : f.Valid hash) (cold : f.Cold) :
    (f.evictSmall hash).Cold ∧ f.SameMain (f.evictSmall hash) := by
  obtain ⟨s, items, rel, _⟩ := valid
  unfold FlatShard.evictSmall
  rcases rel.tail_cases .small with ⟨tail, _⟩ | ⟨p, n, tail, member, held, _⟩
  · rw [tail]
    exact ⟨cold, fun _ _ _ => .rfl⟩
  · obtain ⟨n', held', queue⟩ := rel.home .small p member
    cases held.symm.trans held'
    obtain ⟨unpinned, unread⟩ := cold.idle p n held queue
    have leaves : ¬ (0 < n.pending ∨ 1 < n.freq) := by
      rintro (pinned | read)
      · rw [unpinned] at pinned
        exact UInt32.lt_irrefl _ pinned
      · omega
    obtain ⟨ghost, ghostSet, shape⟩ := ghostAdd_shape (f.remove .small p n) (hash n.key)
    rw [tail]
    simp only [held, if_neg leaves, shape]
    refine ⟨⟨cold.room, fun p' m there small => ?_⟩, fun p' m main => ?_⟩
    · change Function.update f.heap p none p' = some m at there
      rw [Function.update_apply] at there
      split at there
      · cases there
      · exact cold.idle p' m there small
    · change Function.update f.heap p none p' = some m ↔ _
      rw [Function.update_apply]
      split
      · next same =>
        subst same
        constructor
        · rintro ⟨⟩
        · intro there
          cases held.symm.trans there
          cases queue.symm.trans main
      · rfl

/-- So the eviction loop never gets to `main`. -/
theorem Cold.evictLoop (guard : ℕ) : ∀ {f : FlatShard P}, f.Valid hash → f.Cold →
    (evictLoop hash guard f).Cold ∧ f.SameMain (evictLoop hash guard f) := by
  induction guard with
  | zero => exact fun _ cold => ⟨cold, fun _ _ _ => .rfl⟩
  | succ guard ih =>
    intro f valid cold
    obtain ⟨colder, same⟩ := cold.evictSmall valid
    have next := ih valid.evictSmall colder
    unfold FlatShard.evictLoop
    split_ifs with within small main rest
    · exact ⟨cold, fun _ _ _ => .rfl⟩
    · exact ⟨next.1, same.trans next.2⟩
    · exact absurd cold.room (Nat.not_le.mpr (valid.pastShare within small))
    · exact ⟨next.1, same.trans next.2⟩
    · exact ⟨cold, fun _ _ _ => .rfl⟩

/-- A fill that the shard does not remember goes to `small`. -/
theorem Cold.insert (cold : f.Cold) {p : P} {n : Node} (unknown : hash n.key ∉ f.ghostSet) (vacant : f.heap p = none)
    (unpinned : n.pending = 0) (unread : n.freq ≤ 1) :
    (f.insert hash p n).Cold ∧ f.SameMain (f.insert hash p n) := by
  unfold FlatShard.insert
  simp only [if_neg unknown]
  refine ⟨⟨cold.room, fun p' m there small => ?_⟩, fun p' m main => ?_⟩
  · change Function.update f.heap p _ p' = some m at there
    rw [Function.update_apply] at there
    split at there
    · cases there
      exact ⟨unpinned, unread⟩
    · exact cold.idle p' m there small
  · change Function.update f.heap p _ p' = some m ↔ _
    rw [Function.update_apply]
    split
    · next same =>
      subst same
      rw [vacant]
      constructor
      · rintro ⟨⟩
        cases main
      · rintro ⟨⟩
    · rfl

theorem Valid.insert (valid : f.Valid hash) {p : P} {n : Node} (vacant : f.heap p = none)
    (absent : f.find hash n.key = none) (freq : n.freq ≤ kMaxFreq) : (f.insert hash p n).Valid hash := by
  obtain ⟨s, items, rel, share⟩ := valid
  have missing : s.index n.key = none := by
    rw [← rel.lookup_eq_none, lookup, absent]
    rfl
  obtain ⟨items', inserted⟩ := rel.insert vacant missing freq
  exact ⟨_, items', inserted, share⟩

theorem Valid.evict (valid : f.Valid hash) : (f.evict hash).Valid hash := by
  obtain ⟨s, items, rel, share⟩ := valid
  obtain ⟨items', after⟩ := rel.evict
  obtain ⟨budget, smallBudget⟩ := Shard.evictLoop_budget hash _ s
  refine ⟨_, items', after, ?_⟩
  rw [← after.budget, ← after.smallBudget, Shard.evict, budget, smallBudget, rel.budget, rel.smallBudget]
  exact share

/-- What a scan keeps of the shard it started from. -/
theorem Cold.scan {doorkeeper : Bool} {x : Fill P} (valid : f.Valid hash) (cold : f.Cold)
    (taken : f.scan hash doorkeeper x = some g) : g.Valid hash ∧ g.Cold ∧ f.SameMain g := by
  unfold FlatShard.scan at taken
  split at taken
  · next unknown =>
    obtain ⟨absent, fresh, vacant⟩ := unknown
    cases taken
    unfold FlatShard.putIfAbsent
    rw [absent]
    simp only [Option.isSome_none, Bool.false_eq_true, if_false]
    split
    · obtain ⟨s, items, rel, share⟩ := valid
      obtain ⟨ghost, ghostSet, shape⟩ := ghostAdd_shape f (hash x.key)
      refine ⟨⟨_, items, rel.ghostAdd (hash x.key), by rw [shape]; exact share⟩, ?_, ?_⟩
      · rw [shape]
        exact ⟨cold.room, cold.idle⟩
      · rw [shape]
        exact fun _ _ _ => .rfl
    · have inserted := valid.insert (n := ⟨x.key, x.doc, 0, 0, .small, none⟩) vacant absent (Nat.zero_le _)
      obtain ⟨colder, first⟩ := cold.insert (n := ⟨x.key, x.doc, 0, 0, .small, none⟩) fresh vacant rfl (Nat.zero_le _)
      obtain ⟨coldest, second⟩ := colder.evictLoop _ inserted
      exact ⟨inserted.evict, coldest, first.trans second⟩
  · cases taken

theorem Cold.reach {doorkeeper : Bool} (valid : f.Valid hash) (cold : f.Cold)
    (reached : Reach (FlatShard.scan hash doorkeeper) f g) : f.SameMain g := by
  have kept : g.Valid hash ∧ g.Cold ∧ f.SameMain g := by
    refine Reach.invariant (P := fun g : FlatShard P => g.Valid hash ∧ g.Cold ∧ f.SameMain g)
      ⟨valid, cold, fun _ _ _ => .rfl⟩ (fun before taken => ?_) reached
    obtain ⟨valid, cold, same⟩ := before
    obtain ⟨valid, cold, next⟩ := cold.scan valid taken
    exact ⟨valid, cold, same.trans next⟩
  exact kept.2.2

theorem Valid.replace (valid : f.Valid hash) {p : P} (vacant : f.heap p = none) (key : DocKey) (content : Content)
    (sharedCapacity : Option ℕ) : (f.replace hash p key content sharedCapacity).Valid hash := by
  obtain ⟨s, items, rel, share⟩ := valid
  obtain ⟨items', replaced⟩ := rel.replace vacant key content sharedCapacity
  obtain ⟨budget, smallBudget⟩ := Shard.replace_budget hash s key content sharedCapacity
  refine ⟨_, items', replaced, ?_⟩
  rw [← replaced.budget, ← replaced.smallBudget, budget, smallBudget, rel.budget, rel.smallBudget]
  exact share

omit [DecidableEq P] in
theorem Within.valid (within : f.Within hash) : f.Valid hash := by
  obtain ⟨s, items, rel, share, _⟩ := within
  refine ⟨s, items, rel, ?_⟩
  rw [← rel.budget, ← rel.smallBudget]
  exact share

end FlatShard

namespace FlatCache

open FlatShard

variable {P : Type*} [DecidableEq P] (hash : DocKey → UInt64) (shardMask : UInt64)

/-- The shard as a call hands it to `evict`, if it does. -/
def evicted (c : FlatCache P) : CacheOp P → ℕ → Option (FlatShard P)
  | .put key content address, i =>
    if i = shardFor hash shardMask key then some ((c.shards i).replace hash address key content none) else none
  | .putShared key content capacity address, i =>
    if i = shardFor hash shardMask key then some ((c.shards i).replace hash address key content (some capacity))
    else none
  | .putIfAbsent doorkeeper key seqno value flags expiry datatype address, i =>
    if i = shardFor hash shardMask key ∧ (c.shards i).find hash key = none ∧
        ¬ (doorkeeper ∧ hash key ∉ (c.shards i).ghostSet) then
      some ((c.shards i).insert hash address ⟨key, ⟨seqno, value, flags, expiry, datatype, false⟩, 0, 0, .small, none⟩)
    else none
  | .markPersisted key seqno, i =>
    ((c.shards i).lookup hash key).bind fun (p, n) =>
      if i = shardFor hash shardMask key ∧ n.pending = 1 ∧ (c.shards i).budget < (c.shards i).bytes then
        some { (c.shards i).setNode p { n with doc := Shard.noteSeqno seqno n.doc, pending := n.pending - 1 } with
          pendingItems := fetchSub 64 (c.shards i).pendingItems 1 }
      else none
  | .setBudget maxBytes, i =>
    let perShard := maxBytes / (shardMask.toNat + 1)
    if i ≤ shardMask.toNat then
      some { c.shards i with budget := perShard, smallBudget := perShard * kSmallPercent % 2 ^ 64 / 100 }
    else none
  | .erase _, _ | .get _, _ | .getCopy .., _ => none

variable {hash shardMask} {c : FlatCache P}

omit [DecidableEq P] in
theorem shards_setShard (key : DocKey) (next : FlatShard P) :
    (c.setShard hash shardMask key next).shards (shardFor hash shardMask key) = next := Function.update_self ..

/-- What is handed to `evict` is in order, and the call leaves what `evict` makes of it. -/
theorem evicted_spec (within : ∀ i, (c.shards i).Within hash) {op : CacheOp P}
    (able : c.fresh hash shardMask op = true) {i : ℕ} {g : FlatShard P}
    (handed : c.evicted hash shardMask op i = some g) :
    g.Valid hash ∧ (c.apply hash shardMask op).1.shards i = g.evict hash := by
  have valid := fun i => (within i).valid
  unfold evicted at handed
  cases op with
  | put key content address =>
    dsimp only at handed
    split at handed
    · next same =>
      subst same
      cases handed
      exact ⟨(valid _).replace (Option.isNone_iff_eq_none.mp able) key content none, shards_setShard ..⟩
    · cases handed
  | putShared key content capacity address =>
    dsimp only at handed
    split at handed
    · next same =>
      subst same
      cases handed
      exact ⟨(valid _).replace (Option.isNone_iff_eq_none.mp able) key content (some capacity), shards_setShard ..⟩
    · cases handed
  | putIfAbsent doorkeeper key seqno value flags expiry datatype address =>
    dsimp only at handed
    split at handed
    · next passed =>
      obtain ⟨rfl, absent, admitted⟩ := passed
      cases handed
      refine ⟨(valid _).insert (Option.isNone_iff_eq_none.mp able) absent (Nat.zero_le _), ?_⟩
      refine (shards_setShard ..).trans ?_
      rw [shard, putIfAbsent, absent, Option.isSome_none, if_neg Bool.false_ne_true, if_neg admitted]
    · cases handed
  | markPersisted key seqno =>
    obtain ⟨⟨p, n⟩, found, handed⟩ := Option.bind_eq_some_iff.mp handed
    dsimp only at handed
    split at handed
    · next passed =>
      obtain ⟨rfl, last, past⟩ := passed
      cases handed
      obtain ⟨s, items, rel, share⟩ := valid (shardFor hash shardMask key)
      refine ⟨⟨_, items, (rel.mark (rel.lookup_eq_some.mp found).1 seqno).count _, share⟩, ?_⟩
      refine (shards_setShard ..).trans ?_
      simp only [shard, markPersisted, found]
      rw [if_pos last]
      exact if_pos past
    · cases handed
  | erase | get | getCopy => cases handed
  | setBudget maxBytes =>
    dsimp only at handed
    split at handed
    · next inside =>
      cases handed
      obtain ⟨s, items, rel, _⟩ := valid i
      exact ⟨⟨_, items, rel.setBudget _ _, smallBudget_le _⟩, if_pos inside⟩
    · cases handed

/-- From any state of a shard in which `main` is within its share and nothing on `small` is pinned or was read
more than once, fills of keys that are neither held nor remembered leave the entries on `main` as they were,
with the doorkeeper on or off. And no call ever visits `main` but when it holds more than its share. -/
theorem cold_scan_keeps_main (hash : DocKey → UInt64) (shardMask : UInt64) :
    (∀ (f g : FlatShard P) (doorkeeper : Bool), f.Valid hash → f.Cold → Reach (scan hash doorkeeper) f g →
        f.SameMain g) ∧
      ∀ (maxBytes : ℕ) (c : FlatCache P), Reach (step hash shardMask) (empty shardMask maxBytes) c →
        (∀ i, (c.shards i).Valid hash) ∧
        ∀ op, c.fresh hash shardMask op = true → ∀ i g, c.evicted hash shardMask op i = some g →
          (c.apply hash shardMask op).1.shards i = g.evict hash ∧
            ∀ guard, ∀ t ∈ g.mainVisits hash guard, t.PastShare := by
  refine ⟨fun f g doorkeeper valid cold => cold.reach valid, fun maxBytes c reached => ?_⟩
  have within : ∀ i, (c.shards i).Within hash := within_of_reach reached
  refine ⟨fun i => (within i).valid, fun op able i g handed => ?_⟩
  obtain ⟨valid, applied⟩ := evicted_spec within able handed
  exact ⟨applied, fun guard => valid.mainVisits guard⟩

private abbrev first (key : DocKey) : UInt64 := (key.2.headD 0).toUInt64

/-- One key that a doorkeeper let pass the second time, and so on `main`. -/
private def warm : FlatShard ℕ :=
  ((FlatShard.empty 500).putIfAbsent first true 10 (0, [1]) default).putIfAbsent first true 10 (0, [1]) default

/-- Fills past the budget, from a shard with one entry on `main`. -/
theorem cold_scan_keeps_main_warm : ∃ f g : FlatShard ℕ, (f.fifos .main).count = 1 ∧ (g.fifos .small).count = 2 ∧
    f.SameMain g := by
  have run : (exec (scan first false) warm [⟨(0, [2]), ⟨1, ⟨List.replicate 100 7, 0, 0, 0, false⟩⟩, 11⟩,
      ⟨(0, [3]), ⟨2, ⟨List.replicate 100 7, 0, 0, 0, false⟩⟩, 12⟩,
      ⟨(0, [4]), ⟨3, ⟨List.replicate 100 7, 0, 0, 0, false⟩⟩, 13⟩]).map (fun g => (g.fifos .small).count) = some 2 := by
    decide +kernel
  obtain ⟨g, run, count⟩ := Option.map_eq_some_iff.mp run
  have heap : warm.heap = Function.update (fun _ => none) 10 (some ⟨(0, [1]), default, 0, 0, .main, none⟩) := by rfl
  have cold : warm.Cold := by
    refine ⟨by decide +kernel, fun p n there small => ?_⟩
    rw [heap, Function.update_apply] at there
    split at there
    · cases there
      cases small
    · cases there
  have blank : (FlatShard.empty 500 : FlatShard ℕ).Within first :=
    ⟨_, _, .empty first 500, smallBudget_le 500, Nat.zero_le _⟩
  have valid : warm.Valid first := ((blank.putIfAbsent rfl true _ _).putIfAbsent rfl true _ _).valid
  exact ⟨warm, g, by decide +kernel, count, (cold_scan_keeps_main first 0).1 warm g false valid cold ⟨_, run⟩⟩

end FlatCache

end FluxKV.Cache
