import FluxKV.Cache.Contract
import FluxKV.Engine.Request

/-! # One shard of the S3-FIFO cache

A shard indexes its entries by vbucket and key and links each into one of two queues. New entries go
to `small`, or to `main` if the shard remembers evicting their hash; eviction takes from the tail of
a queue, passes pinned and recently read entries along, and frees the others. Every operation runs
under the shard's lock; those that take the lock more than once are split where they release it.
`contents` is the shard as the contract sees it.
-/

namespace FluxKV.Cache

open Engine Protocol Counting

def kMapSlotOverhead : ℕ := 24
def kSmallPercent : ℕ := 10
def kMaxFreq : ℕ := 3
def sizeofEntry : ℕ := 56
def sizeofExt : ℕ := 16
def sizeofVbid : ℕ := 2

/-- `enum Queue`. -/
inductive Queue where
  | small
  | main
deriving DecidableEq, Repr

/-- `struct Entry`. The key is the one the index holds it under. `sharedCapacity` is the capacity of
the request's buffer when the value stays there, as `PutShared` leaves it. -/
structure Entry where
  doc : Version
  pending : ℕ
  freq : ℕ
  queue : Queue
  sharedCapacity : Option ℕ
deriving DecidableEq, Repr

namespace Entry

def charge (key : DocKey) (e : Entry) : ℕ :=
  sizeofEntry + sizeofVbid + key.2.length +
    (match e.sharedCapacity with
      | some capacity => sizeofExt + capacity
      | none => e.doc.content.value.length) +
    kMapSlotOverhead

def pinned (e : Entry) : Pinned Version := ⟨e.doc, e.pending⟩

end Entry

/-- `struct Fifo`, its keys from the tail to the head. -/
structure Fifo where
  items : List DocKey
  bytes : ℕ
  count : ℕ
deriving DecidableEq, Repr

namespace Fifo

def empty : Fifo := ⟨[], 0, 0⟩

def pushHead (q : Fifo) (key : DocKey) (charge : ℕ) : Fifo := ⟨q.items ++ [key], q.bytes + charge, q.count + 1⟩

def remove (q : Fifo) (key : DocKey) (charge : ℕ) : Fifo := ⟨q.items.erase key, q.bytes - charge, q.count - 1⟩

end Fifo

/-- `struct Shard`, its statistics and seqno index apart. `ghostSet` holds what `ghost` holds. -/
structure Shard where
  index : DocKey → Option Entry
  small : Fifo
  main : Fifo
  ghost : List UInt64
  budget : ℕ
  smallBudget : ℕ
  pendingItems : ℕ

namespace Shard

def empty (perShard : ℕ) : Shard where
  index := fun _ => none
  small := .empty
  main := .empty
  ghost := []
  budget := perShard
  smallBudget := perShard * kSmallPercent / 100
  pendingItems := 0

/-- The shard as a partial map from keys to documents and pins. -/
def contents (s : Shard) : Contents DocKey Version := fun key => (s.index key).map Entry.pinned

def bytes (s : Shard) : ℕ := s.small.bytes + s.main.bytes

def ghostAdd (s : Shard) (h : UInt64) : Shard :=
  if h ∈ s.ghost then s
  else
    let ghost := s.ghost ++ [h]
    { s with ghost := ghost.drop (ghost.length - max 1024 s.main.count) }

def unlink (s : Shard) (key : DocKey) (e : Entry) : Shard :=
  match e.queue with
  | .small => { s with small := s.small.remove key (e.charge key) }
  | .main => { s with main := s.main.remove key (e.charge key) }

/-- Erase from the index and destroy. -/
def free (s : Shard) (key : DocKey) (e : Entry) : Shard :=
  { s with
    index := Function.update s.index key none
    pendingItems := if 0 < e.pending then fetchSub 64 s.pendingItems 1 else s.pendingItems }

/-- Put an entry into `main` and under its key. -/
def linkMain (s : Shard) (key : DocKey) (e : Entry) : Shard :=
  { s with
    main := s.main.pushHead key (e.charge key)
    index := Function.update s.index key (some { e with queue := .main }) }

def linkSmall (s : Shard) (key : DocKey) (e : Entry) : Shard :=
  { s with
    small := s.small.pushHead key (e.charge key)
    index := Function.update s.index key (some { e with queue := .small }) }

/-- Take what is held for a key off its queue. The index slot is overwritten by the caller. -/
def detach (s : Shard) (key : DocKey) : Shard :=
  match s.index key with
  | none => s
  | some old => s.unlink key old

section Eviction

variable (hash : DocKey → UInt64)

def insert (s : Shard) (key : DocKey) (e : Entry) : Shard :=
  if hash key ∈ s.ghost then s.linkMain key e else s.linkSmall key e

def evictSmall (s : Shard) : Shard :=
  match s.small.items with
  | [] => s
  | key :: _ =>
    match s.index key with
    | none => s
    | some e =>
      let popped := { s with small := s.small.remove key (e.charge key) }
      if 0 < e.pending ∨ 1 < e.freq then popped.linkMain key { e with freq := 0 }
      else (popped.ghostAdd (hash key)).free key e

def evictMain (s : Shard) : Shard :=
  match s.main.items with
  | [] => s
  | key :: _ =>
    match s.index key with
    | none => s
    | some e =>
      let popped := { s with main := s.main.remove key (e.charge key) }
      if 0 < e.pending ∨ 0 < e.freq then popped.linkMain key { e with freq := e.freq - 1 }
      else popped.free key e

/-- The loop of `evict`, bounded by its guard. -/
def evictLoop : ℕ → Shard → Shard
  | 0, s => s
  | guard + 1, s =>
    if s.bytes ≤ s.budget then s
    else if s.smallBudget < s.small.bytes ∧ s.small.items ≠ [] then evictLoop guard (s.evictSmall hash)
    else if s.main.items ≠ [] then evictLoop guard s.evictMain
    else if s.small.items ≠ [] then evictLoop guard (s.evictSmall hash)
    else s

def evict (s : Shard) : Shard := evictLoop hash ((kMaxFreq + 1) * (s.small.count + s.main.count) + 1) s

/-- The exclusive section of `Put` and `PutShared`: the pins of the old entry carry over. -/
def putEntry (s : Shard) (key : DocKey) (content : Content) (sharedCapacity : Option ℕ) : Shard :=
  let carry := s.contents.pending key
  let counted := { s.detach key with
    pendingItems := if carry = 0 then s.pendingItems + 1 else s.pendingItems }
  (counted.insert hash key ⟨⟨0, content⟩, fetchAdd 32 carry 1, 0, .small, sharedCapacity⟩).evict hash

/-- The doorkeeper of a read fill: whether the key was seen before, and remembered now. -/
def fillDoorkeeper (s : Shard) (key : DocKey) : Bool × Shard :=
  if hash key ∈ s.ghost then (true, s) else (false, s.ghostAdd (hash key))

/-- The exclusive section at the end of `PutIfAbsent`. -/
def fillInsert (s : Shard) (key : DocKey) (doc : Version) : Shard :=
  match s.index key with
  | some _ => s
  | none => (s.insert hash key ⟨doc, 0, 0, .small, none⟩).evict hash

/-- `SetBudget` on one shard. -/
def setBudget (s : Shard) (perShard : ℕ) : Shard :=
  { s with budget := perShard, smallBudget := perShard * kSmallPercent / 100 }.evict hash

end Eviction

/-- The seqno `MarkPersisted` records, if it is given one. -/
def noteSeqno (seqno : ℕ) (doc : Version) : Version := if seqno = 0 then doc else { doc with seqno }

/-- The shared section of `MarkPersisted`, and whether the shard is left over budget. -/
def markPersisted (s : Shard) (key : DocKey) (seqno : ℕ) : Shard × Bool :=
  match s.index key with
  | none => (s, false)
  | some e =>
    let index := Function.update s.index key
      (some { e with doc := noteSeqno seqno e.doc, pending := fetchSub 32 e.pending 1 })
    if e.pending = 1 then
      ({ s with index, pendingItems := fetchSub 64 s.pendingItems 1 }, decide (s.budget < s.bytes))
    else ({ s with index }, false)

def erase (s : Shard) (key : DocKey) : Shard :=
  match s.index key with
  | none => s
  | some e => (s.unlink key e).free key e

/-- `Get` and `GetCopy`: a hit is counted towards the entry's frequency. -/
def touch (s : Shard) (key : DocKey) : Shard :=
  match s.index key with
  | none => s
  | some e =>
    { s with
      index := Function.update s.index key
        (some { e with freq := if e.freq < kMaxFreq then e.freq + 1 else e.freq }) }

@[simp] theorem contents_unlink (s : Shard) (key : DocKey) (e : Entry) : (s.unlink key e).contents = s.contents := by
  unfold unlink
  cases e.queue <;> rfl

@[simp] theorem pendingItems_unlink (s : Shard) (key : DocKey) (e : Entry) :
    (s.unlink key e).pendingItems = s.pendingItems := by
  unfold unlink
  cases e.queue <;> rfl

@[simp] theorem contents_ghostAdd (s : Shard) (h : UInt64) : (s.ghostAdd h).contents = s.contents := by
  unfold ghostAdd
  split <;> rfl

@[simp] theorem pendingItems_ghostAdd (s : Shard) (h : UInt64) : (s.ghostAdd h).pendingItems = s.pendingItems := by
  unfold ghostAdd
  split <;> rfl

private theorem map_update (index : DocKey → Option Entry) (key : DocKey) (entry : Option Entry) :
    (fun k => (Function.update index key entry k).map Entry.pinned) =
      Function.update (fun k => (index k).map Entry.pinned) key (entry.map Entry.pinned) := by
  funext k
  by_cases same : k = key
  · subst same
    simp
  · simp [same]

theorem contents_linkMain (s : Shard) (key : DocKey) (e : Entry) :
    (s.linkMain key e).contents = s.contents.alter key fun _ => some e.pinned :=
  map_update ..

theorem contents_linkSmall (s : Shard) (key : DocKey) (e : Entry) :
    (s.linkSmall key e).contents = s.contents.alter key fun _ => some e.pinned :=
  map_update ..

theorem contents_free (s : Shard) (key : DocKey) (e : Entry) : (s.free key e).contents = s.contents.erase key :=
  map_update ..

section Specs

variable (hash : DocKey → UInt64)

theorem contents_insert (s : Shard) (key : DocKey) (e : Entry) :
    (s.insert hash key e).contents = s.contents.alter key fun _ => some e.pinned := by
  unfold insert
  split
  · exact contents_linkMain s key e
  · exact contents_linkSmall s key e

@[simp] theorem pendingItems_insert (s : Shard) (key : DocKey) (e : Entry) :
    (s.insert hash key e).pendingItems = s.pendingItems := by
  unfold insert
  split <;> rfl

/-- The shard dropped unpinned entries and nothing else the contract sees. -/
def Trims (s t : Shard) : Prop := s.contents.Evicts t.contents ∧ t.pendingItems = s.pendingItems

theorem Trims.refl (s : Shard) : Trims s s := ⟨.refl _, rfl⟩

theorem Trims.trans {s t u : Shard} (first : Trims s t) (second : Trims t u) : Trims s u :=
  ⟨first.1.trans second.1, second.2.trans first.2⟩

private theorem trims_linkMain {s popped : Shard} {key : DocKey} {e e' : Entry}
    (contents : popped.contents = s.contents) (items : popped.pendingItems = s.pendingItems)
    (held : s.index key = some e) (same : e'.pinned = e.pinned) : Trims s (popped.linkMain key e') := by
  refine ⟨fun k => .inl ?_, items⟩
  rw [contents_linkMain, contents, same]
  by_cases equal : k = key
  · subst equal
    simp [Shard.contents, held]
  · rw [Contents.alter_of_ne _ _ equal]

private theorem trims_free {s popped : Shard} {key : DocKey} {e : Entry}
    (contents : popped.contents = s.contents) (items : popped.pendingItems = s.pendingItems)
    (held : s.index key = some e) (unpinned : e.pending = 0) : Trims s (popped.free key e) := by
  refine ⟨fun k => ?_, by simp [free, unpinned, items]⟩
  rw [contents_free, contents, Contents.erase]
  by_cases equal : k = key
  · subst equal
    refine .inr ⟨Contents.alter_self .., ?_⟩
    simp [Contents.pending, Shard.contents, held, Entry.pinned, unpinned]
  · exact .inl (Contents.alter_of_ne _ _ equal)

theorem trims_evictSmall (s : Shard) : Trims s (s.evictSmall hash) := by
  unfold evictSmall
  split
  · exact .refl s
  split
  · exact .refl s
  next e held =>
  dsimp only
  split
  · exact trims_linkMain rfl rfl held rfl
  · next passed => exact trims_free (contents_ghostAdd ..) (pendingItems_ghostAdd ..) held (by omega)

theorem trims_evictMain (s : Shard) : Trims s s.evictMain := by
  unfold evictMain
  split
  · exact .refl s
  split
  · exact .refl s
  next e held =>
  dsimp only
  split
  · exact trims_linkMain rfl rfl held rfl
  · next passed => exact trims_free rfl rfl held (by omega)

theorem trims_evictLoop (guard : ℕ) (s : Shard) : Trims s (evictLoop hash guard s) := by
  induction guard generalizing s with
  | zero => exact .refl s
  | succ guard ih =>
    unfold evictLoop
    split_ifs
    · exact .refl s
    · exact (trims_evictSmall hash s).trans (ih _)
    · exact (trims_evictMain s).trans (ih _)
    · exact (trims_evictSmall hash s).trans (ih _)
    · exact .refl s

/-- Eviction frees unpinned entries only, however far over budget the shard is. -/
theorem trims_evict (s : Shard) : Trims s (s.evict hash) := trims_evictLoop ..

@[simp] theorem contents_detach (s : Shard) (key : DocKey) : (s.detach key).contents = s.contents := by
  unfold detach
  split
  · rfl
  · exact contents_unlink ..

/-- `pendingItems` is the number of entries a write pins. -/
def Counted (s : Shard) : Prop := s.contents.CountsPinned s.pendingItems

theorem Counted.of_trims {s t : Shard} (counted : s.Counted) (trims : Trims s t) : t.Counted := by
  rw [Counted, trims.2]
  exact Contents.CountsPinned.congr counted trims.1.pending

theorem putEntry_evicts (s : Shard) (key : DocKey) (content : Content) (sharedCapacity : Option ℕ) :
    (s.contents.put key ⟨0, content⟩).Evicts (s.putEntry hash key content sharedCapacity).contents := by
  refine .trans (.of_eq ?_) (trims_evict hash _).1
  rw [contents_insert]
  exact congrArg (Contents.alter · key _) (contents_detach s key)

theorem Counted.putEntry {s : Shard} (counted : s.Counted) {key : DocKey} (content : Content)
    (sharedCapacity : Option ℕ) (few : s.contents.pending key + 1 < 2 ^ 32) :
    (s.putEntry hash key content sharedCapacity).Counted := by
  have evicts := putEntry_evicts hash s key content sharedCapacity
  have items : (s.putEntry hash key content sharedCapacity).pendingItems =
      if s.contents.pending key = 0 then s.pendingItems + 1 else s.pendingItems :=
    (trims_evict hash _).2.trans (pendingItems_insert ..)
  rw [Counted, items]
  refine Contents.CountsPinned.congr ?_ evicts.pending
  refine Contents.CountsPinned.pinned counted (fun k other => Contents.pending_alter_of_ne _ _ other) ?_
  rw [Contents.pending_put_self, fetchAdd_of_lt few]
  exact Nat.succ_pos _

theorem fillInsert_evicts (s : Shard) (key : DocKey) (doc : Version) :
    (s.contents.fill key doc).Evicts (s.fillInsert hash key doc).contents := by
  unfold fillInsert
  cases held : s.index key with
  | some e =>
    refine .of_eq (funext fun k => ?_)
    by_cases same : k = key
    · subst same
      simp [Contents.fill, Shard.contents, held]
    · exact (Contents.alter_of_ne _ _ same).symm
  | none =>
    refine .trans (.of_eq ?_) (trims_evict hash _).1
    rw [contents_insert, Contents.fill, Contents.alter, Contents.alter]
    simp [Shard.contents, held, Entry.pinned]

theorem Counted.fillInsert {s : Shard} (counted : s.Counted) (key : DocKey) (doc : Version) :
    (s.fillInsert hash key doc).Counted := by
  have items : (s.fillInsert hash key doc).pendingItems = s.pendingItems := by
    unfold Shard.fillInsert
    split
    · rfl
    · exact (trims_evict hash _).2.trans (pendingItems_insert ..)
  rw [Counted, items]
  apply Contents.CountsPinned.congr counted
  intro k
  rw [(fillInsert_evicts hash s key doc).pending, Contents.pending_fill]

theorem trims_fillDoorkeeper (s : Shard) (key : DocKey) : Trims s (s.fillDoorkeeper hash key).2 := by
  unfold fillDoorkeeper
  split
  · exact .refl s
  · exact ⟨.of_eq (contents_ghostAdd ..), pendingItems_ghostAdd ..⟩

theorem trims_setBudget (s : Shard) (perShard : ℕ) : Trims s (s.setBudget hash perShard) :=
  trims_evict hash { s with budget := perShard, smallBudget := perShard * kSmallPercent / 100 }

end Specs

theorem trims_touch (s : Shard) (key : DocKey) : Trims s (s.touch key) := by
  unfold touch
  cases held : s.index key with
  | none => exact .refl s
  | some e =>
    refine ⟨.of_eq (funext fun k => ?_), rfl⟩
    by_cases same : k = key
    · subst same
      simp [contents, held, Entry.pinned]
    · simp [contents, same]

/-- `MarkPersisted` releases one pin and records the seqno. -/
theorem contents_markPersisted (s : Shard) (key : DocKey) (seqno : ℕ) :
    (s.markPersisted key seqno).1.contents = s.contents.unpin key (noteSeqno seqno) := by
  have shape : ∀ e, s.index key = some e → (fun k => (Function.update s.index key
      (some { e with doc := noteSeqno seqno e.doc, pending := fetchSub 32 e.pending 1 }) k).map Entry.pinned) =
        s.contents.unpin key (noteSeqno seqno) := by
    intro e held
    have here : s.contents key = some e.pinned := by simp [contents, held]
    rw [map_update, Contents.unpin, Contents.alter, here]
    rfl
  unfold markPersisted
  cases held : s.index key with
  | none =>
    refine (funext fun k => ?_ : s.contents = _)
    by_cases same : k = key
    · subst same
      simp [Contents.unpin, contents, held]
    · exact (Contents.alter_of_ne _ _ same).symm
  | some e =>
    dsimp only
    split
    · exact shape e held
    · exact shape e held

theorem Counted.markPersisted {s : Shard} (counted : s.Counted) {key : DocKey} (seqno : ℕ)
    (pinned : 0 < s.contents.pending key) : (s.markPersisted key seqno).1.Counted := by
  have others : ∀ k, k ≠ key → (s.contents.unpin key (noteSeqno seqno)).pending k = s.contents.pending k :=
    fun k other => Contents.pending_alter_of_ne _ _ other
  have self := Contents.pending_unpin_self (noteSeqno seqno) pinned
  obtain ⟨p, held, same⟩ := Contents.exists_of_pending_pos pinned
  obtain ⟨e, found, rfl⟩ := Option.map_eq_some_iff.mp held
  rw [Counted, contents_markPersisted]
  change e.pending = _ at same
  by_cases last : e.pending = 1
  · have items : (s.markPersisted key seqno).1.pendingItems = s.pendingItems - 1 := by
      simp only [Shard.markPersisted, found, last, if_true]
      exact fetchSub_of_le (Contents.CountsPinned.pos counted pinned)
    have fewer := Contents.CountsPinned.unpinned counted others (by omega)
    rwa [if_pos pinned, ← items] at fewer
  · have items : (s.markPersisted key seqno).1.pendingItems = s.pendingItems := by
      simp only [Shard.markPersisted, found, last, if_false]
    have equal := Contents.CountsPinned.pinned counted others (by omega)
    rwa [if_neg (by omega), ← items] at equal

theorem contents_erase (s : Shard) (key : DocKey) : (s.erase key).contents = s.contents.erase key := by
  unfold erase
  cases held : s.index key with
  | none =>
    refine (funext fun k => ?_ : s.contents = _)
    by_cases same : k = key
    · subst same
      simp [Contents.erase, contents, held]
    · exact (Contents.alter_of_ne _ _ same).symm
  | some e => rw [contents_free, contents_unlink]

theorem Counted.erase {s : Shard} (counted : s.Counted) (key : DocKey) : (s.erase key).Counted := by
  have others : ∀ k, k ≠ key → (s.contents.erase key).pending k = s.contents.pending k :=
    fun k other => Contents.pending_alter_of_ne _ _ other
  have fewer := Contents.CountsPinned.unpinned counted others (Contents.pending_erase_self ..)
  rw [Counted, contents_erase]
  convert fewer using 1
  unfold Shard.erase
  cases held : s.index key with
  | none =>
    have unpinned : s.contents.pending key = 0 := Contents.pending_eq_zero (by simp [contents, held])
    simp [unpinned]
  | some e =>
    have pins : s.contents.pending key = e.pending := by simp [Contents.pending, contents, held, Entry.pinned]
    rw [pins]
    simp only [free, pendingItems_unlink]
    split
    · next pinned => exact fetchSub_of_le (Contents.CountsPinned.pos (k := key) counted (by omega))
    · rfl

theorem empty_counted (perShard : ℕ) : (empty perShard).Counted :=
  ⟨∅, fun k => by simp [Contents.pending, contents, empty], rfl⟩

end Shard

end FluxKV.Cache
