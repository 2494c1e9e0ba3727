import FluxKV.Cache.FlatShard

/-! # What the memory of a shard represents

`Represents` ties a shard in memory to the shard as a map with two queues of keys. The queues are the
chains through the entries' links, every live entry is on the queue it names, and the index holds
each entry once, under the hash of its key; bytes and counts are those of the chains. One entry may be
loose: taken off its queue and neither linked again nor freed yet. Every operation in memory then does
what the operation on the map does.
-/

namespace FluxKV.Cache

open Engine Protocol Counting IntrusiveList

namespace Shard

def fifo (s : Shard) : Queue → Fifo
  | .small => s.small
  | .main => s.main

def setFifo (s : Shard) (queue : Queue) (fifo : Fifo) : Shard :=
  match queue with
  | .small => { s with small := fifo }
  | .main => { s with main := fifo }

variable (s : Shard) (queue : Queue) (x : Fifo)

@[simp] theorem fifo_setFifo : (s.setFifo queue x).fifo = Function.update s.fifo queue x := by
  funext other
  cases queue <;> cases other <;> rfl

@[simp] theorem index_setFifo : (s.setFifo queue x).index = s.index := by cases queue <;> rfl

@[simp] theorem ghost_setFifo : (s.setFifo queue x).ghost = s.ghost := by cases queue <;> rfl

@[simp] theorem budget_setFifo : (s.setFifo queue x).budget = s.budget := by cases queue <;> rfl

@[simp] theorem smallBudget_setFifo : (s.setFifo queue x).smallBudget = s.smallBudget := by cases queue <;> rfl

@[simp] theorem pendingItems_setFifo : (s.setFifo queue x).pendingItems = s.pendingItems := by cases queue <;> rfl

/-- Change what is held under one key. -/
def setIndex (key : DocKey) (e : Option Entry) : Shard := { s with index := Function.update s.index key e }

/-- `putEntry` up to its eviction. -/
def replace (hash : DocKey → UInt64) (key : DocKey) (content : Content) (sharedCapacity : Option ℕ) : Shard :=
  let counted := { s.detach key with
    pendingItems := if s.contents.pending key = 0 then s.pendingItems + 1 else s.pendingItems }
  counted.insert hash key ⟨⟨0, content⟩, fetchAdd 32 (s.contents.pending key) 1, 0, .small, sharedCapacity⟩

/-- All of `PutIfAbsent`. -/
def putIfAbsent (hash : DocKey → UInt64) (doorkeeper : Bool) (key : DocKey) (doc : Version) : Shard :=
  if (s.index key).isSome then s
  else if doorkeeper ∧ hash key ∉ s.ghost then s.ghostAdd (hash key)
  else s.fillInsert hash key doc

/-- All of `MarkPersisted`. -/
def persist (hash : DocKey → UInt64) (key : DocKey) (seqno : ℕ) : Shard :=
  if (s.markPersisted key seqno).2 then (s.markPersisted key seqno).1.evict hash else (s.markPersisted key seqno).1

theorem persist_of_held {hash : DocKey → UInt64} {key : DocKey} {e : Entry} (held : s.index key = some e)
    (seqno : ℕ) : s.persist hash key seqno =
      let marked := s.setIndex key (some { e with doc := noteSeqno seqno e.doc, pending := fetchSub 32 e.pending 1 })
      let counted := { marked with pendingItems := fetchSub 64 s.pendingItems 1 }
      if e.pending = 1 then if s.budget < s.bytes then counted.evict hash else counted else marked := by
  unfold persist markPersisted
  simp only [held]
  by_cases last : e.pending = 1
  · simp only [last, if_true, decide_eq_true_eq]
    rfl
  · simp only [last, if_false, Bool.false_eq_true]
    rfl

theorem persist_of_absent {hash : DocKey → UInt64} {key : DocKey} (absent : s.index key = none) (seqno : ℕ) :
    s.persist hash key seqno = s := by
  unfold persist markPersisted
  simp only [absent, Bool.false_eq_true, if_false]

theorem insert_setIndex (hash : DocKey → UInt64) (key : DocKey) (e : Entry) (old : Option Entry) :
    (s.setIndex key old).insert hash key e = s.insert hash key e := by
  unfold insert
  simp only [setIndex, linkMain, linkSmall, Function.update_idem]

theorem unlink_eq (key : DocKey) (e : Entry) :
    s.unlink key e = s.setFifo e.queue ((s.fifo e.queue).remove key (e.charge key)) := by
  unfold unlink
  cases e.queue <;> rfl

end Shard

/-- An acknowledgement does not change what an entry is charged. -/
theorem Entry.charge_noteSeqno (key : DocKey) (e : Entry) (seqno pending : ℕ) :
    ({ e with doc := Shard.noteSeqno seqno e.doc, pending } : Entry).charge key = e.charge key := by
  have same : (Shard.noteSeqno seqno e.doc).content = e.doc.content := by
    unfold Shard.noteSeqno
    split <;> rfl
  simp only [Entry.charge, same]

/-- `fetch_add` and `fetch_sub` on the 32 bits of `pending`. -/
theorem toNat_add_one (pending : UInt32) : (pending + 1).toNat = fetchAdd 32 pending.toNat 1 := UInt32.toNat_add ..

theorem toNat_sub_one (pending : UInt32) : (pending - 1).toNat = fetchSub 32 pending.toNat 1 := by
  have bound := pending.toNat_lt
  rw [UInt32.toNat_sub, show (1 : UInt32).toNat = 1 from rfl, fetchSub]
  split <;> omega

namespace FlatShard

variable {P : Type*} (hash : DocKey → UInt64)

def keyAt (f : FlatShard P) (p : P) : DocKey := ((f.heap p).map Node.key).getD default

def chargeAt (f : FlatShard P) (p : P) : ℕ := ((f.heap p).map Node.charge).getD 0

/-- The memory `f` represents the shard `s`, with these addresses on its queues. -/
structure Represents (f : FlatShard P) (s : Shard) (items : Queue → List P) (loose : Option P) : Prop where
  chain : ∀ q, Chain f.links (f.fifos q).ends (items q)
  home : ∀ q, ∀ p ∈ items q, ∃ n, f.heap p = some n ∧ n.queue = q
  listed : ∀ p n, f.heap p = some n → p ∈ items n.queue ∨ loose = some p
  off : ∀ p, loose = some p → ∀ q, p ∉ items q
  sound : f.index.Sound
  members : ∀ h p, f.index.Mem h p ↔ ∃ n, f.heap p = some n ∧ hash n.key = h
  distinct : ∀ p p' n n', f.heap p = some n → f.heap p' = some n' → n.key = n'.key → p = p'
  ghost : s.ghost = f.ghost
  ghostSet : f.ghostSet = f.ghost.toFinset
  ghostNodup : f.ghost.Nodup
  entries : ∀ p n, f.heap p = some n → s.index n.key = some n.entry
  resident : ∀ key e, s.index key = some e → ∃ p n, f.heap p = some n ∧ n.key = key
  fifos : ∀ q, s.fifo q = ⟨(items q).map f.keyAt, (f.fifos q).bytes, (f.fifos q).count⟩
  bytes : ∀ q, (f.fifos q).bytes = ((items q).map f.chargeAt).sum
  counts : ∀ q, (f.fifos q).count = (items q).length
  freq : ∀ p n, f.heap p = some n → n.freq ≤ kMaxFreq
  budget : s.budget = f.budget
  smallBudget : s.smallBudget = f.smallBudget
  pendingItems : s.pendingItems = f.pendingItems

variable {hash} {f : FlatShard P} {s : Shard} {items : Queue → List P} {loose : Option P} {p : P} {n : Node}

theorem keyAt_eq (held : f.heap p = some n) : f.keyAt p = n.key := by simp [keyAt, held]

theorem chargeAt_eq (held : f.heap p = some n) : f.chargeAt p = n.charge := by simp [chargeAt, held]

namespace Represents

theorem empty (hash : DocKey → UInt64) (perShard : ℕ) :
    Represents hash (FlatShard.empty perShard : FlatShard P)
      { Shard.empty perShard with smallBudget := perShard * kSmallPercent % 2 ^ 64 / 100 } (fun _ => []) none where
  chain := fun _ => .nil _
  home := fun _ _ member => by simp at member
  listed := fun _ _ held => by cases held
  off := fun _ held => by cases held
  sound := .empty
  members := fun h p => ⟨fun member => (FlatIndex.not_mem_empty h p member).elim, fun ⟨_, held, _⟩ => by cases held⟩
  distinct := fun _ _ _ _ held => by cases held
  ghost := rfl
  ghostSet := rfl
  ghostNodup := .nil
  entries := fun _ _ held => by cases held
  resident := fun _ _ held => by cases held
  fifos := fun q => by cases q <;> rfl
  bytes := fun _ => rfl
  counts := fun _ => rfl
  freq := fun _ _ held => by cases held
  budget := rfl
  smallBudget := rfl
  pendingItems := rfl

/-- A search finds the one live entry with the key. -/
theorem find_eq_some (rel : Represents hash f s items loose) {key : DocKey} :
    f.find hash key = some p ↔ ∃ n, f.heap p = some n ∧ n.key = key := by
  have found : ∀ e, (f.index.Mem (hash key) e ∧ (f.heap e).any (fun n => n.key = key) = true) ↔
      ∃ n, f.heap e = some n ∧ n.key = key := by
    intro e
    rw [rel.members]
    constructor
    · rintro ⟨⟨n, held, _⟩, matched⟩
      exact ⟨n, held, by simpa [held] using matched⟩
    · rintro ⟨n, held, rfl⟩
      exact ⟨⟨n, held, rfl⟩, by simp [held]⟩
  rw [← found, find]
  apply rel.sound.find_eq_some
  intro e₁ e₂ first second match₁ match₂
  obtain ⟨n₁, held₁, key₁⟩ := (found e₁).mp ⟨first, match₁⟩
  obtain ⟨n₂, held₂, key₂⟩ := (found e₂).mp ⟨second, match₂⟩
  exact rel.distinct e₁ e₂ n₁ n₂ held₁ held₂ (key₁.trans key₂.symm)

theorem lookup_eq_some (rel : Represents hash f s items loose) {key : DocKey} :
    f.lookup hash key = some (p, n) ↔ f.heap p = some n ∧ n.key = key := by
  simp only [lookup, Option.bind_eq_some_iff, Option.map_eq_some_iff, Prod.mk.injEq]
  constructor
  · rintro ⟨q, found, m, held, rfl, rfl⟩
    obtain ⟨m', held', same⟩ := rel.find_eq_some.mp found
    cases held.symm.trans held'
    exact ⟨held, same⟩
  · rintro ⟨held, same⟩
    exact ⟨p, rel.find_eq_some.mpr ⟨n, held, same⟩, n, held, rfl, rfl⟩

theorem lookup_eq_none (rel : Represents hash f s items loose) {key : DocKey} :
    f.lookup hash key = none ↔ s.index key = none := by
  constructor
  · intro none
    cases held : s.index key with
    | none => rfl
    | some e =>
      obtain ⟨p, n, live, same⟩ := rel.resident key e held
      cases none.symm.trans (rel.lookup_eq_some.mpr ⟨live, same⟩)
  · intro none
    cases found : f.lookup hash key with
    | none => rfl
    | some old =>
      obtain ⟨live, same⟩ := rel.lookup_eq_some.mp found
      have held := rel.entries _ _ live
      rw [same, none] at held
      cases held

/-- What the map holds under a key is what a search in memory finds. -/
theorem index_eq (rel : Represents hash f s items loose) (key : DocKey) :
    s.index key = (f.lookup hash key).map fun found => found.2.entry := by
  cases found : f.lookup hash key with
  | none => exact rel.lookup_eq_none.mp found
  | some old =>
    obtain ⟨live, rfl⟩ := rel.lookup_eq_some.mp found
    exact rel.entries _ _ live

/-- The addresses on two queues are different. -/
theorem eq_of_mem (rel : Represents hash f s items loose) {q q' : Queue} (first : p ∈ items q)
    (second : p ∈ items q') : q = q' := by
  obtain ⟨n, held, rfl⟩ := rel.home q p first
  obtain ⟨n', held', rfl⟩ := rel.home q' p second
  cases held.symm.trans held'
  rfl

/-- One queue changes, and nothing else but which entry is loose. -/
private theorem setQueue (rel : Represents hash f s items loose) {loose' : Option P} {q : Queue} {l : List P}
    {links : Links P} {ends : Ends P} {bytes count : ℕ} (chain : Chain links ends l)
    (apart : ∀ q' ≠ q, ∀ x ∈ items q', links.prev x = f.links.prev x ∧ links.next x = f.links.next x)
    (home : ∀ x ∈ l, ∃ m, f.heap x = some m ∧ m.queue = q)
    (listed : ∀ x m, f.heap x = some m → x ∈ Function.update items q l m.queue ∨ loose' = some x)
    (off : ∀ x, loose' = some x → ∀ q', x ∉ Function.update items q l q') (charged : bytes = (l.map f.chargeAt).sum)
    (counted : count = l.length) :
    Represents hash { f with links, fifos := Function.update f.fifos q ⟨ends, bytes, count⟩ }
      (s.setFifo q ⟨l.map f.keyAt, bytes, count⟩) (Function.update items q l) loose' := by
  refine { rel with
    chain := fun q' => ?_, home := fun q' => ?_, listed, off, ghost := (s.ghost_setFifo q _).trans rel.ghost
    entries := fun x m live => (congrFun (s.index_setFifo q _) _).trans (rel.entries x m live)
    resident := fun key e indexed => rel.resident key e ((congrFun (s.index_setFifo q _) key).symm.trans indexed)
    fifos := fun q' => ?_, bytes := fun q' => ?_, counts := fun q' => ?_
    budget := (s.budget_setFifo q _).trans rel.budget, smallBudget := (s.smallBudget_setFifo q _).trans rel.smallBudget
    pendingItems := (s.pendingItems_setFifo q _).trans rel.pendingItems }
  all_goals by_cases same : q' = q
  · subst same
    simpa only [Function.update_self] using chain
  · simp only [Function.update_of_ne same]
    exact (rel.chain q').congr (apart q' same)
  · subst same
    simpa only [Function.update_self] using home
  · simpa only [Function.update_of_ne same] using rel.home q'
  · subst same
    simp only [Shard.fifo_setFifo, Function.update_self]
    rfl
  · simp only [Shard.fifo_setFifo, Function.update_of_ne same]
    exact rel.fifos q'
  · subst same
    simp only [Function.update_self]
    exact charged
  · simp only [Function.update_of_ne same]
    exact rel.bytes q'
  · subst same
    simpa only [Function.update_self] using counted
  · simpa only [Function.update_of_ne same] using rel.counts q'

private theorem key_eq_iff (rel : Represents hash f s items loose) (held : f.heap p = some n) (x : P) (m : Node)
    (live : f.heap x = some m) : m.key = n.key ↔ x = p := by
  refine ⟨fun equal => rel.distinct x p m n live held equal, ?_⟩
  rintro rfl
  cases held.symm.trans live
  rfl

variable [DecidableEq P]

/-- `Fifo::remove`: the entry is loose. -/
theorem pop (rel : Represents hash f s items none) {q : Queue} (held : f.heap p = some n) (member : p ∈ items q) :
    Represents hash (f.remove q p n) (s.setFifo q ((s.fifo q).remove n.key n.charge))
      (Function.update items q ((items q).erase p)) (some p) := by
  obtain ⟨before, after, split⟩ := List.append_of_mem member
  have nodup := (rel.chain q).nodup
  have mem_erase : ∀ x, x ∈ (items q).erase p ↔ x ≠ p ∧ x ∈ items q := fun x => nodup.mem_erase_iff
  rw [split] at nodup
  have fresh : p ∉ before := fun inside => (List.nodup_append'.mp nodup).2.2 inside (by simp)
  have erased : (items q).erase p = before ++ after := by
    rw [split, List.erase_append_right _ fresh, List.erase_cons_head]
  have unseen : n.key ∉ before.map f.keyAt := by
    intro inside
    obtain ⟨x, there, equal⟩ := List.mem_map.mp inside
    obtain ⟨m, live, _⟩ := rel.home q x (by simp [split, there])
    rw [keyAt_eq live] at equal
    exact fresh (rel.distinct x p m n live held equal ▸ there)
  have keys : ((items q).map f.keyAt).erase n.key = ((items q).erase p).map f.keyAt := by
    rw [erased, split, List.map_append, List.map_cons, keyAt_eq held, List.erase_append_right _ unseen,
      List.erase_cons_head, List.map_append]
  have charged : (f.fifos q).bytes - n.charge = (((items q).erase p).map f.chargeAt).sum := by
    rw [rel.bytes, erased, split]
    simp only [List.map_append, List.map_cons, List.sum_append, List.sum_cons, chargeAt_eq held]
    omega
  have removed : (s.fifo q).remove n.key n.charge =
      ⟨((items q).erase p).map f.keyAt, (f.fifos q).bytes - n.charge, (f.fifos q).count - 1⟩ := by
    rw [← keys, rel.fifos q]
    rfl
  rw [removed]
  refine rel.setQueue ?_ (fun q' other x inside => ?_) (fun x inside => rel.home q x ((mem_erase x).mp inside).2)
    (fun x m live => ?_) ?_ charged (by rw [rel.counts q, List.length_erase_of_mem member])
  · rw [erased]
    apply Chain.remove
    rw [← split]
    exact rel.chain q
  · exact (rel.chain q).remove_other member fun there => other (rel.eq_of_mem inside there)
  · have inside := (rel.listed x m live).resolve_right (by simp)
    by_cases same : x = p
    · exact .inr (by rw [same])
    · refine .inl ?_
      by_cases there : m.queue = q
      · rw [there, Function.update_self]
        exact (mem_erase x).mpr ⟨same, by rwa [← there]⟩
      · rwa [Function.update_of_ne there]
  · rintro x same q' inside
    cases same
    by_cases there : q' = q
    · subst there
      rw [Function.update_self] at inside
      exact ((mem_erase p).mp inside).1 rfl
    · rw [Function.update_of_ne there] at inside
      exact there (rel.eq_of_mem inside member)

/-- `Fifo::pushHead`: a loose entry is on the queue it names. -/
theorem push (rel : Represents hash f s items (some p)) (held : f.heap p = some n) :
    Represents hash (f.pushHead n.queue p n) (s.setFifo n.queue ((s.fifo n.queue).pushHead n.key n.charge))
      (Function.update items n.queue (items n.queue ++ [p])) none := by
  have fresh := rel.off p rfl
  have charged : (f.fifos n.queue).bytes + n.charge = ((items n.queue ++ [p]).map f.chargeAt).sum := by
    rw [List.map_append, List.sum_append, rel.bytes, List.map_singleton, List.sum_singleton, chargeAt_eq held]
  have pushed : (s.fifo n.queue).pushHead n.key n.charge = ⟨(items n.queue ++ [p]).map f.keyAt,
      (f.fifos n.queue).bytes + n.charge, (f.fifos n.queue).count + 1⟩ := by
    rw [rel.fifos, List.map_append, List.map_singleton, keyAt_eq held]
    rfl
  rw [pushed]
  refine rel.setQueue ((rel.chain n.queue).pushHead (fresh n.queue)) (fun q' other x inside => ?_)
    (List.forall_mem_append.mpr ⟨rel.home n.queue, List.forall_mem_singleton.mpr ⟨n, held, rfl⟩⟩)
    (fun x m live => .inl ?_) (fun _ none => nomatch none) charged (by simp [rel.counts])
  · apply pushHead_other
    · rintro rfl
      exact fresh q' inside
    · rw [(rel.chain n.queue).head]
      intro last
      exact other (rel.eq_of_mem inside (List.mem_of_getLast? last))
  · rcases rel.listed x m live with old | new
    · by_cases there : m.queue = n.queue
      · rw [there, Function.update_self]
        exact List.mem_append_left _ (there ▸ old)
      · rwa [Function.update_of_ne there]
    · cases new
      cases held.symm.trans live
      simp

/-- One address holds something else under its key, and the index follows. On a queue, its queue and charge stay. -/
private theorem setHeap (rel : Represents hash f s items loose) {loose' : Option P} {v : Option Node} {key : DocKey}
    {index : FlatIndex P} (sound : index.Sound)
    (members : ∀ h x, index.Mem h x ↔ ∃ m, Function.update f.heap p v x = some m ∧ hash m.key = h)
    (only : ∀ x m, f.heap x = some m → (m.key = key ↔ x = p))
    (new : ∀ m, v = some m → m.key = key ∧ m.freq ≤ kMaxFreq ∧ (p ∈ items m.queue ∨ loose' = some p))
    (stays : ∀ q, p ∈ items q → ∃ m m', f.heap p = some m ∧ v = some m' ∧ m'.queue = m.queue ∧ m'.charge = m.charge)
    (others : ∀ x ≠ p, loose = some x → loose' = some x) (off : ∀ x, loose' = some x → ∀ q, x ∉ items q) :
    Represents hash { f with heap := Function.update f.heap p v, index } (s.setIndex key (v.map Node.entry))
      items loose' := by
  have heap : ∀ x m, Function.update f.heap p v x = some m ↔ (x = p ∧ v = some m) ∨ (x ≠ p ∧ f.heap x = some m) := by
    intro x m
    by_cases equal : x = p
    · subst equal
      simp
    · simp [equal]
  have keyed : ∀ x m, Function.update f.heap p v x = some m → (m.key = key ↔ x = p) := by
    intro x m live
    rcases (heap x m).mp live with ⟨rfl, now⟩ | ⟨_, was⟩
    · exact iff_of_true (new m now).1 rfl
    · exact only x m was
  have moves : ∀ q, ∀ x ∈ items q, keyAt { f with heap := Function.update f.heap p v, index } x = f.keyAt x ∧
      chargeAt { f with heap := Function.update f.heap p v, index } x = f.chargeAt x := by
    intro q x inside
    by_cases equal : x = p
    · subst equal
      obtain ⟨m, m', was, now, _, charge⟩ := stays q inside
      have same : m'.key = m.key := (new m' now).1.trans ((only x m was).mpr rfl).symm
      simp [keyAt, chargeAt, was, now, same, charge]
    · simp [keyAt, chargeAt, equal]
  refine { rel with
    home := fun q x inside => ?_, listed := fun x m live => ?_, off, sound, members
    distinct := fun x x' m m' live live' equal => ?_, entries := fun x m live => ?_
    resident := fun k e indexed => ?_, fifos := fun q => ?_, bytes := fun q => ?_, freq := fun x m live => ?_ }
  · obtain ⟨m, live, there⟩ := rel.home q x inside
    by_cases equal : x = p
    · subst equal
      obtain ⟨m₁, m', was, now, queue, _⟩ := stays q inside
      cases live.symm.trans was
      exact ⟨m', (heap x m').mpr (.inl ⟨rfl, now⟩), queue.trans there⟩
    · exact ⟨m, (heap x m).mpr (.inr ⟨equal, live⟩), there⟩
  · rcases (heap x m).mp live with ⟨rfl, now⟩ | ⟨other, was⟩
    · exact (new m now).2.2
    · exact (rel.listed x m was).imp_right (others x other)
  · have same : x = p ↔ x' = p := by rw [← keyed x m live, ← keyed x' m' live', equal]
    rcases (heap x m).mp live with ⟨here, _⟩ | ⟨away, was⟩
    · rw [here, same.mp here]
    · obtain ⟨_, was'⟩ := ((heap x' m').mp live').resolve_left fun here => away (same.mpr here.1)
      exact rel.distinct x x' m m' was was' equal
  · rcases (heap x m).mp live with ⟨rfl, now⟩ | ⟨other, was⟩
    · simp [Shard.setIndex, (new m now).1, now]
    · simpa [Shard.setIndex, only x m was, other] using rel.entries x m was
  · by_cases equal : k = key
    · obtain ⟨m, now, _⟩ : ∃ m, v = some m ∧ m.entry = e := by simpa [Shard.setIndex, equal] using indexed
      exact ⟨p, m, (heap p m).mpr (.inl ⟨rfl, now⟩), (new m now).1.trans equal.symm⟩
    · obtain ⟨x, m, live, rfl⟩ := rel.resident k e (by simpa [Shard.setIndex, equal] using indexed)
      exact ⟨x, m, (heap x m).mpr (.inr ⟨fun same => equal ((only x m live).mpr same), live⟩), rfl⟩
  · rw [List.map_congr_left fun x inside => (moves q x inside).1]
    exact rel.fifos q
  · rw [List.map_congr_left fun x inside => (moves q x inside).2]
    exact rel.bytes q
  · rcases (heap x m).mp live with ⟨_, now⟩ | ⟨_, was⟩
    · exact (new m now).2.1
    · exact rel.freq x m was

/-- A live entry's fields change under its key. -/
theorem setNode (rel : Represents hash f s items loose) (held : f.heap p = some n) (n' : Node)
    (same : n'.key = n.key) (charge : n'.charge = n.charge) (freq : n'.freq ≤ kMaxFreq)
    (queue : n'.queue = n.queue ∨ loose = some p) :
    Represents hash (f.setNode p n') (s.setIndex n.key (some n'.entry)) items loose := by
  refine rel.setHeap (v := some n') rel.sound (fun h x => ?_) (rel.key_eq_iff held) (fun m now => ?_)
    (fun q inside => ?_) (fun _ _ loose => loose) rel.off
  · rw [rel.members]
    by_cases equal : x = p
    · subst equal
      simp [held, same]
    · simp [equal]
  · cases now
    refine ⟨same, freq, ?_⟩
    rcases queue with kept | free
    · rw [kept]
      exact rel.listed p n held
    · exact .inr free
  · exact ⟨n, n', held, rfl, queue.resolve_right fun free => rel.off p free q inside, charge⟩

/-- A new entry, indexed and not yet on a queue. -/
theorem alloc (rel : Represents hash f s items none) (vacant : f.heap p = none) (absent : s.index n.key = none)
    (freq : n.freq ≤ kMaxFreq) :
    Represents hash { f.setNode p n with index := f.index.insert (hash n.key) p } (s.setIndex n.key (some n.entry))
      items (some p) := by
  have unlisted : ∀ q, p ∉ items q := by
    intro q inside
    obtain ⟨m, live, _⟩ := rel.home q p inside
    cases vacant.symm.trans live
  obtain ⟨sound, members⟩ := rel.sound.insert (hash n.key) (e := p) fun h member => by
    obtain ⟨m, live, _⟩ := (rel.members h p).mp member
    cases vacant.symm.trans live
  refine rel.setHeap (v := some n) sound (fun h x => ?_) (fun x m live => ?_) (fun m now => ?_)
    (fun q inside => (unlisted q inside).elim) (fun _ _ loose => nomatch loose) (fun x same => ?_)
  · rw [members, rel.members]
    by_cases equal : x = p
    · subst equal
      simp [vacant, eq_comm]
    · simp [equal]
  · refine iff_of_false (fun equal => ?_) ?_
    · have held := rel.entries x m live
      rw [equal, absent] at held
      cases held
    · rintro rfl
      cases vacant.symm.trans live
  · cases now
    exact ⟨rfl, freq, .inr rfl⟩
  · cases same
    exact unlisted

/-- A loose entry is destroyed. -/
theorem destroy (rel : Represents hash f s items (some p)) (held : f.heap p = some n) :
    Represents hash (f.destroy hash p n) (s.setIndex n.key none) items none := by
  obtain ⟨sound, members⟩ := rel.sound.erase ((rel.members _ p).mpr ⟨n, held, rfl⟩)
  refine rel.setHeap (v := none) sound (fun h x => ?_) (rel.key_eq_iff held) (fun _ none => nomatch none)
    (fun q inside => (rel.off p rfl q inside).elim) (fun x other same => ?_) (fun _ none => nomatch none)
  · rw [members, rel.members]
    by_cases equal : x = p
    · subst equal
      simp
    · simp [equal]
  · cases same
    exact (other rfl).elim

omit [DecidableEq P] in
/-- The counter of pinned entries moves on its own. -/
theorem count (rel : Represents hash f s items loose) (k : ℕ) :
    Represents hash { f with pendingItems := k } { s with pendingItems := k } items loose :=
  { rel with pendingItems := rfl }

private theorem pending_pos_iff (n : Node) : 0 < n.pending ↔ 0 < n.entry.pending := UInt32.lt_iff_toNat_lt

/-- Whether eviction passes an entry along, in memory and in the map. -/
private theorem passes_iff (n : Node) (bound : ℕ) :
    (0 < n.pending ∨ bound < n.freq) ↔ (0 < n.entry.pending ∨ bound < n.entry.freq) := or_congr_left (pending_pos_iff n)

/-- `free` of a loose entry. -/
theorem free (rel : Represents hash f s items (some p)) (held : f.heap p = some n) :
    Represents hash (f.free hash p n) (s.free n.key n.entry) items none := by
  have items := rel.pendingItems
  have freed := (rel.destroy held).count
    (if 0 < n.entry.pending then fetchSub 64 s.pendingItems 1 else s.pendingItems)
  have shape : f.free hash p n = { f.destroy hash p n with
      pendingItems := if 0 < n.entry.pending then fetchSub 64 s.pendingItems 1 else s.pendingItems } := by
    simp only [FlatShard.free, pending_pos_iff, items]
  rw [shape]
  exact freed

/-- A new entry takes a queue and an index slot. -/
theorem insert (rel : Represents hash f s items none) (vacant : f.heap p = none) (absent : s.index n.key = none)
    (freq : n.freq ≤ kMaxFreq) :
    ∃ items', Represents hash (f.insert hash p n) (s.insert hash n.key n.entry) items' none := by
  have known : hash n.key ∈ f.ghostSet ↔ hash n.key ∈ s.ghost := by rw [rel.ghostSet, rel.ghost, List.mem_toFinset]
  unfold FlatShard.insert Shard.insert
  simp only [known]
  split
  · have placed := rel.alloc (n := { n with queue := .main }) vacant absent freq
    have pushed := placed.push (n := { n with queue := .main }) (by simp [FlatShard.setNode])
    exact ⟨_, pushed⟩
  · have placed := rel.alloc (n := { n with queue := .small }) vacant absent freq
    have pushed := placed.push (n := { n with queue := .small }) (by simp [FlatShard.setNode])
    exact ⟨_, pushed⟩

omit [DecidableEq P] in
private theorem trimGhost_eq (cap : ℕ) {l : List UInt64} (nodup : l.Nodup) :
    trimGhost cap l l.toFinset = (l.drop (l.length - cap), (l.drop (l.length - cap)).toFinset) := by
  induction l with
  | nil => simp [trimGhost]
  | cons h rest ih =>
    obtain ⟨fresh, nodup⟩ := List.nodup_cons.mp nodup
    have erased : (h :: rest).toFinset.erase h = rest.toFinset := by
      rw [List.toFinset_cons, Finset.erase_insert (by simpa using fresh)]
    unfold trimGhost
    split
    · next past =>
      rw [List.length_cons] at past ⊢
      rw [erased, ih nodup, show rest.length + 1 - cap = rest.length - cap + 1 by omega, List.drop_succ_cons]
    · next fits => rw [show (h :: rest).length - cap = 0 by omega, List.drop_zero]

omit [DecidableEq P] in
theorem ghostAdd (rel : Represents hash f s items loose) (h : UInt64) :
    Represents hash (f.ghostAdd h) (s.ghostAdd h) items loose := by
  have known : h ∈ f.ghostSet ↔ h ∈ s.ghost := by rw [rel.ghostSet, rel.ghost, List.mem_toFinset]
  have main : s.main.count = (f.fifos .main).count := congrArg Fifo.count (rel.fifos .main)
  unfold FlatShard.ghostAdd Shard.ghostAdd
  simp only [known]
  split
  · exact rel
  · next fresh =>
    have nodup : (f.ghost ++ [h]).Nodup :=
      rel.ghostNodup.append (List.nodup_singleton h) (by simpa [rel.ghost] using fresh)
    have set : Insert.insert h f.ghostSet = (f.ghost ++ [h]).toFinset := by
      rw [rel.ghostSet, List.toFinset_append, Finset.union_comm]
      rfl
    rw [set, trimGhost_eq _ nodup]
    exact { rel with
      ghost := by simp only [rel.ghost, main], ghostSet := rfl, ghostNodup := nodup.sublist (List.drop_sublist ..) }

omit [DecidableEq P] in
/-- The entry at the tail of a queue. -/
theorem tail_cases (rel : Represents hash f s items none) (q : Queue) :
    ((f.fifos q).ends.tail = none ∧ (s.fifo q).items = []) ∨
      ∃ p n, (f.fifos q).ends.tail = some p ∧ p ∈ items q ∧ f.heap p = some n ∧
        (∃ rest, (s.fifo q).items = n.key :: rest) ∧ s.index n.key = some n.entry := by
  have tail := (rel.chain q).tail
  have fifo := rel.fifos q
  cases content : items q with
  | nil =>
    rw [content] at tail fifo
    exact .inl ⟨tail, by rw [fifo]; rfl⟩
  | cons p rest =>
    rw [content] at tail fifo
    obtain ⟨n, held, _⟩ := rel.home q p (by simp [content])
    refine .inr ⟨p, n, tail, by simp, held, ⟨rest.map f.keyAt, ?_⟩, rel.entries p n held⟩
    rw [fifo, List.map_cons, keyAt_eq held]

omit [DecidableEq P] in
private theorem heap_ghostAdd (h : UInt64) : (f.ghostAdd h).heap = f.heap := by
  unfold FlatShard.ghostAdd
  split <;> rfl

/-- A popped entry goes to the head of `main`, with another frequency. -/
private theorem pass (popped : Represents hash f s items (some p)) (held : f.heap p = some n) {freq : ℕ}
    (low : freq ≤ kMaxFreq) : ∃ items', Represents hash ((f.setNode p { n with freq, queue := .main }).pushHead .main p
      { n with freq, queue := .main }) (s.linkMain n.key { n.entry with freq }) items' none := by
  have moved := popped.setNode held { n with freq, queue := .main } rfl rfl low (.inr rfl)
  have pushed := moved.push (n := { n with freq, queue := .main }) (by simp [FlatShard.setNode])
  exact ⟨_, pushed⟩

theorem evictSmall (rel : Represents hash f s items none) :
    ∃ items', Represents hash (f.evictSmall hash) (s.evictSmall hash) items' none := by
  unfold FlatShard.evictSmall Shard.evictSmall
  rcases rel.tail_cases .small with ⟨tail, none⟩ | ⟨p, n, tail, member, held, ⟨rest, keys⟩, indexed⟩
  · rw [show s.small.items = [] from none, tail]
    exact ⟨items, rel⟩
  · rw [show s.small.items = n.key :: rest from keys, tail]
    simp only [held, indexed]
    have popped := rel.pop held member
    by_cases passes : 0 < n.entry.pending ∨ 1 < n.entry.freq
    · rw [if_pos ((passes_iff n 1).mpr passes), if_pos passes]
      exact popped.pass held (Nat.zero_le _)
    · rw [if_neg (mt (passes_iff n 1).mp passes), if_neg passes]
      exact ⟨_, (popped.ghostAdd (hash n.key)).free (by rw [heap_ghostAdd]; exact held)⟩

theorem evictMain (rel : Represents hash f s items none) :
    ∃ items', Represents hash (f.evictMain hash) s.evictMain items' none := by
  unfold FlatShard.evictMain Shard.evictMain
  rcases rel.tail_cases .main with ⟨tail, none⟩ | ⟨p, n, tail, member, held, ⟨rest, keys⟩, indexed⟩
  · rw [show s.main.items = [] from none, tail]
    exact ⟨items, rel⟩
  · rw [show s.main.items = n.key :: rest from keys, tail]
    simp only [held, indexed]
    obtain ⟨n', held', queue⟩ := rel.home .main p member
    cases held.symm.trans held'
    have stays : ({ n with freq := n.freq - 1 } : Node) = { n with freq := n.freq - 1, queue := .main } := by
      rw [← queue]
    have popped := rel.pop held member
    by_cases passes : 0 < n.entry.pending ∨ 0 < n.entry.freq
    · rw [if_pos ((passes_iff n 0).mpr passes), if_pos passes, stays]
      exact popped.pass held ((Nat.sub_le ..).trans (rel.freq p n held))
    · rw [if_neg (mt (passes_iff n 0).mp passes), if_neg passes]
      exact ⟨_, popped.free held⟩

omit [DecidableEq P] in
theorem bytes_eq (rel : Represents hash f s items loose) : s.bytes = f.bytes := by
  have small : s.small = _ := rel.fifos .small
  have main : s.main = _ := rel.fifos .main
  rw [Shard.bytes, small, main]
  rfl

theorem evictLoop (guard : ℕ) : ∀ {f : FlatShard P} {s : Shard} {items : Queue → List P},
    Represents hash f s items none →
      ∃ items', Represents hash (FlatShard.evictLoop hash guard f) (Shard.evictLoop hash guard s) items' none := by
  induction guard with
  | zero => exact fun rel => ⟨_, rel⟩
  | succ guard ih =>
    intro f s items rel
    have tail : ∀ q, (f.fifos q).ends.tail ≠ none ↔ (s.fifo q).items ≠ [] := by
      intro q
      rw [(rel.chain q).tail, rel.fifos q]
      simp
    have smallBytes : s.small.bytes = (f.fifos .small).bytes := congrArg Fifo.bytes (rel.fifos .small)
    have smallTail : (f.fifos .small).ends.tail ≠ none ↔ s.small.items ≠ [] := tail .small
    have mainTail : (f.fifos .main).ends.tail ≠ none ↔ s.main.items ≠ [] := tail .main
    unfold FlatShard.evictLoop Shard.evictLoop
    simp only [rel.bytes_eq, rel.budget, rel.smallBudget, smallBytes, smallTail, mainTail]
    split_ifs
    · exact ⟨items, rel⟩
    · obtain ⟨items', evicted⟩ := rel.evictSmall
      exact ih evicted
    · obtain ⟨items', evicted⟩ := rel.evictMain
      exact ih evicted
    · obtain ⟨items', evicted⟩ := rel.evictSmall
      exact ih evicted
    · exact ⟨items, rel⟩

theorem evict (rel : Represents hash f s items none) :
    ∃ items', Represents hash (f.evict hash) (s.evict hash) items' none := by
  have small : s.small.count = (f.fifos .small).count := congrArg Fifo.count (rel.fifos .small)
  have main : s.main.count = (f.fifos .main).count := congrArg Fifo.count (rel.fifos .main)
  unfold FlatShard.evict Shard.evict
  rw [small, main]
  exact rel.evictLoop _

omit [DecidableEq P] in
/-- The pins of a key are those of the entry a search finds. -/
theorem pending_eq (rel : Represents hash f s items loose) (key : DocKey) :
    s.contents.pending key = (((f.lookup hash key).map fun found : P × Node => found.2.pending).getD 0).toNat := by
  simp only [Contents.pending, Shard.contents, rel.index_eq key]
  cases f.lookup hash key <;> rfl

/-- Taking an entry off its queue and destroying it. -/
private theorem clear (rel : Represents hash f s items none) (held : f.heap p = some n) :
    ∃ items', Represents hash ((f.unlink p n).destroy hash p n) ((s.unlink n.key n.entry).setIndex n.key none)
      items' none := by
  have popped := rel.pop held ((rel.listed p n held).resolve_right (by simp))
  rw [Shard.unlink_eq]
  exact ⟨_, popped.destroy held⟩

/-- The new entry is counted and linked. -/
private theorem install (rel : Represents hash f s items none) (vacant : f.heap p = none) {key : DocKey}
    (absent : s.index key = none) (content : Content) (sharedCapacity : Option ℕ) (carry : UInt32) :
    ∃ items', Represents hash
      ({ f with pendingItems := if carry = 0 then f.pendingItems + 1 else f.pendingItems }.insert hash p
        ⟨key, ⟨0, content⟩, carry + 1, 0, .small, sharedCapacity⟩)
      ({ s with pendingItems := if carry.toNat = 0 then s.pendingItems + 1 else s.pendingItems }.insert hash key
        ⟨⟨0, content⟩, fetchAdd 32 carry.toNat 1, 0, .small, sharedCapacity⟩) items' none := by
  have zero : carry.toNat = 0 ↔ carry = 0 := by rw [← UInt32.toNat_inj]; rfl
  have counted := rel.count (if carry = 0 then f.pendingItems + 1 else f.pendingItems)
  simp only [zero, rel.pendingItems, ← toNat_add_one]
  exact counted.insert (n := ⟨key, ⟨0, content⟩, carry + 1, 0, .small, sharedCapacity⟩) vacant absent (Nat.zero_le _)

/-- A put replaces the entry as it does on the map. -/
theorem replace (rel : Represents hash f s items none) (vacant : f.heap p = none) (key : DocKey) (content : Content)
    (sharedCapacity : Option ℕ) :
    ∃ items', Represents hash (f.replace hash p key content sharedCapacity)
      (s.replace hash key content sharedCapacity) items' none := by
  have carry := rel.pending_eq key
  unfold FlatShard.replace Shard.replace
  rw [carry]
  cases found : f.lookup hash key with
  | none =>
    have absent := rel.lookup_eq_none.mp found
    have same : s.detach key = s := by simp only [Shard.detach, absent]
    rw [same]
    exact rel.install vacant absent content sharedCapacity 0
  | some old =>
    obtain ⟨old, n⟩ := old
    obtain ⟨held, rfl⟩ := rel.lookup_eq_some.mp found
    have detached : s.detach n.key = s.unlink n.key n.entry := by
      simp only [Shard.detach, rel.entries old n held]
    obtain ⟨_, cleared⟩ := rel.clear held
    have vacant' : ((f.unlink old n).destroy hash old n).heap p = none := by
      simp [FlatShard.destroy, unlink, remove, Function.update_apply, vacant]
    have absent : ((s.unlink n.key n.entry).setIndex n.key none).index n.key = none := by simp [Shard.setIndex]
    have installed := cleared.install vacant' absent content sharedCapacity n.pending
    rw [detached]
    dsimp only [Option.map_some, Option.getD_some]
    rw [← Shard.insert_setIndex _ hash n.key _ none, ← s.pendingItems_unlink n.key n.entry]
    exact installed

theorem putEntry (rel : Represents hash f s items none) (vacant : f.heap p = none) (key : DocKey) (content : Content)
    (sharedCapacity : Option ℕ) : ∃ items', Represents hash (f.putEntry hash p key content sharedCapacity)
      (s.putEntry hash key content sharedCapacity) items' none := by
  obtain ⟨_, replaced⟩ := rel.replace vacant key content sharedCapacity
  exact replaced.evict

/-- `PutIfAbsent` does what it does on the map. -/
theorem putIfAbsent (rel : Represents hash f s items none) (vacant : f.heap p = none) (doorkeeper : Bool)
    (key : DocKey) (doc : Version) :
    ∃ items', Represents hash (f.putIfAbsent hash doorkeeper p key doc) (s.putIfAbsent hash doorkeeper key doc)
      items' none := by
  have known : hash key ∈ f.ghostSet ↔ hash key ∈ s.ghost := by rw [rel.ghostSet, rel.ghost, List.mem_toFinset]
  have present : (f.find hash key).isSome = (s.index key).isSome := by
    rw [rel.index_eq key, Option.isSome_map, lookup]
    cases found : f.find hash key with
    | none => rfl
    | some p =>
      obtain ⟨n, held, _⟩ := rel.find_eq_some.mp found
      simp [held]
  unfold FlatShard.putIfAbsent Shard.putIfAbsent
  simp only [known, present]
  split_ifs with held closed
  · exact ⟨items, rel⟩
  · exact ⟨items, rel.ghostAdd (hash key)⟩
  · have absent : s.index key = none := by simpa using held
    obtain ⟨_, inserted⟩ := rel.insert (n := ⟨key, doc, 0, 0, .small, none⟩) vacant absent (Nat.zero_le _)
    unfold Shard.fillInsert
    rw [absent]
    exact inserted.evict

/-- `MarkPersisted` on the entry it finds. -/
theorem mark (rel : Represents hash f s items none) (held : f.heap p = some n) (seqno : ℕ) :
    Represents hash (f.setNode p { n with doc := Shard.noteSeqno seqno n.doc, pending := n.pending - 1 })
      (s.setIndex n.key (some { n.entry with
        doc := Shard.noteSeqno seqno n.entry.doc, pending := fetchSub 32 n.entry.pending 1 })) items none := by
  have marked := rel.setNode held { n with doc := Shard.noteSeqno seqno n.doc, pending := n.pending - 1 } rfl
    (Entry.charge_noteSeqno n.key n.entry seqno _) (rel.freq p n held) (.inl rfl)
  have entry : ({ n with doc := Shard.noteSeqno seqno n.doc, pending := n.pending - 1 } : Node).entry =
      { n.entry with doc := Shard.noteSeqno seqno n.entry.doc, pending := fetchSub 32 n.entry.pending 1 } := by
    simp only [Node.entry, toNat_sub_one]
  rwa [entry] at marked

/-- `MarkPersisted` does what it does on the map. -/
theorem markPersisted (rel : Represents hash f s items none) (key : DocKey) (seqno : ℕ) :
    ∃ items', Represents hash (f.markPersisted hash key seqno) (s.persist hash key seqno) items' none := by
  unfold FlatShard.markPersisted
  cases found : f.lookup hash key with
  | none =>
    rw [s.persist_of_absent (rel.lookup_eq_none.mp found)]
    exact ⟨items, rel⟩
  | some old =>
    obtain ⟨p, n⟩ := old
    obtain ⟨held, rfl⟩ := rel.lookup_eq_some.mp found
    have one : n.pending = 1 ↔ n.entry.pending = 1 := by rw [← UInt32.toNat_inj]; rfl
    have marked := rel.mark held seqno
    rw [s.persist_of_held (rel.entries p n held)]
    simp only [one, rel.budget, rel.bytes_eq, rel.pendingItems]
    split_ifs
    · exact (marked.count _).evict
    · exact ⟨items, marked.count _⟩
    · exact ⟨items, marked⟩

theorem erase (rel : Represents hash f s items none) (key : DocKey) :
    ∃ items', Represents hash (f.erase hash key) (s.erase key) items' none := by
  have indexed := rel.index_eq key
  unfold FlatShard.erase Shard.erase
  cases found : f.lookup hash key with
  | none =>
    simp only [indexed, found, Option.map_none]
    exact ⟨items, rel⟩
  | some old =>
    obtain ⟨p, n⟩ := old
    obtain ⟨held, rfl⟩ := rel.lookup_eq_some.mp found
    simp only [indexed, found, Option.map_some]
    have popped := rel.pop held ((rel.listed p n held).resolve_right (by simp))
    rw [Shard.unlink_eq]
    exact ⟨_, popped.free held⟩

/-- A hit of `Get` or `GetCopy` moves the frequency only. -/
theorem touch (rel : Represents hash f s items none) (held : f.heap p = some n) :
    Represents hash (f.touch p n) (s.touch n.key) items none := by
  have low := rel.freq p n held
  have touched := rel.setNode held { n with freq := if n.freq < kMaxFreq then n.freq + 1 else n.freq } rfl rfl
    (by dsimp only; split <;> omega) (.inl rfl)
  have same : s.touch n.key = s.setIndex n.key (some { n.entry with
      freq := if n.freq < kMaxFreq then n.freq + 1 else n.freq }) := by
    simp only [Shard.touch, rel.entries p n held]
    rfl
  rw [same]
  exact touched

omit [DecidableEq P] in
/-- The budgets move on their own. -/
theorem setBudget (rel : Represents hash f s items none) (budget smallBudget : ℕ) :
    Represents hash { f with budget, smallBudget } { s with budget, smallBudget } items none :=
  { rel with budget := rfl, smallBudget := rfl }

end Represents

end FlatShard

end FluxKV.Cache
