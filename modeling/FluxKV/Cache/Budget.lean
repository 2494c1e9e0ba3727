import FluxKV.Cache.DocStore
import Mathlib.Algebra.BigOperators.Group.Finset.Basic
import Mathlib.Algebra.Order.BigOperators.Group.List

/-! # The byte budget

Eviction stops at a guard computed before it starts. A pass over `main` lowers the frequency of every
survivor, so an entry at position `i` of a queue of `n` is freed within `freq * n + i + 1` visits
unless a write pins it. Entries that arrive from `small` meanwhile go behind the old ones and carry
no frequency. Hence the guard is long enough: when the loop ends, the shard is within its budget or
all that is left in `main` is pinned.
-/

namespace FluxKV.Cache

open Engine Protocol Counting Machine

namespace Shard

variable {hash : DocKey → UInt64} {s : Shard}

/-- Remembering a hash touches the ghost queue only. -/
theorem ghostAdd_eq (s : Shard) (h : UInt64) : ∃ ghost, s.ghostAdd h = { s with ghost } := by
  unfold ghostAdd
  split
  · exact ⟨s.ghost, rfl⟩
  · exact ⟨_, rfl⟩

def chargeAt (s : Shard) (key : DocKey) : ℕ := ((s.index key).map (Entry.charge key)).getD 0

/-- Whether the key is held and no write pins it. -/
def unpinned (s : Shard) (key : DocKey) : Bool := (s.index key).any fun e => e.pending = 0

/-- The charge of the entries eviction may free. -/
def unpinnedBytes (s : Shard) : ℕ := (((s.small.items ++ s.main.items).filter s.unpinned).map s.chargeAt).sum

/-- The queues list the entries of the index, each once, and count their bytes. -/
structure Linked (s : Shard) : Prop where
  nodup : ∀ q, (s.fifo q).items.Nodup
  home : ∀ q, ∀ key ∈ (s.fifo q).items, ∃ e, s.index key = some e ∧ e.queue = q
  bytes : ∀ q, (s.fifo q).bytes = ((s.fifo q).items.map s.chargeAt).sum
  counts : ∀ q, (s.fifo q).count = (s.fifo q).items.length
  freq : ∀ key e, s.index key = some e → e.freq ≤ kMaxFreq

/-- Every unpinned entry of `main` is freed within `bound` visits to it. -/
def Due (s : Shard) (bound : ℕ) : Prop :=
  ∀ i key e, s.main.items[i]? = some key → s.index key = some e → e.pending = 0 →
    e.freq * s.main.items.length + i + 1 ≤ bound

theorem Linked.main_cases (linked : s.Linked) :
    s.main.items = [] ∨ ∃ key rest e, s.main.items = key :: rest ∧ key ∉ rest ∧ s.index key = some e := by
  cases items : s.main.items with
  | nil => exact .inl rfl
  | cons key rest =>
    obtain ⟨e, held, _⟩ := linked.home .main key (by simp [fifo, items])
    have nodup := linked.nodup .main
    rw [show (s.fifo .main).items = key :: rest from items] at nodup
    exact .inr ⟨key, rest, e, rfl, (List.nodup_cons.mp nodup).1, held⟩

/-- A visit to the tail of `main` brings every unpinned entry one visit closer. -/
theorem Linked.due_evictMain (linked : s.Linked) {bound : ℕ} (due : s.Due bound) : s.evictMain.Due (bound - 1) := by
  rcases linked.main_cases with none | ⟨key, rest, e, items, fresh, held⟩
  · intro i k e there
    simp [evictMain, none] at there
  · have later : ∀ i k e', rest[i]? = some k → s.index k = some e' → e'.pending = 0 →
        e'.freq * (rest.length + 1) + i + 1 ≤ bound - 1 := by
      intro i k e' there inside unpinned
      have visits := due (i + 1) k e' (by rw [items]; exact there) inside unpinned
      rw [items, List.length_cons] at visits
      omega
    unfold evictMain
    simp only [items, held]
    split
    · next passes =>
      have queue : (s.main.remove key (e.charge key)).items = rest := by simp [Fifo.remove, items]
      intro i k e' there inside unpinned
      simp only [linkMain, Fifo.pushHead, queue, List.length_append, List.length_singleton] at there inside ⊢
      rcases Nat.lt_or_ge i rest.length with before | last
      · rw [List.getElem?_append_left before] at there
        have other : k ≠ key := by
          rintro rfl
          exact fresh (List.mem_of_getElem? there)
        rw [Function.update_of_ne other] at inside
        exact later i k e' there inside unpinned
      · rw [List.getElem?_append_right last] at there
        obtain ⟨rfl, same⟩ : i = rest.length ∧ key = k := by
          have bound := (List.getElem?_eq_some_iff.mp there).1
          rw [List.length_singleton] at bound
          refine ⟨by omega, ?_⟩
          rw [show i - rest.length = 0 by omega] at there
          simpa using there
        subst same
        rw [Function.update_self] at inside
        cases inside
        have first := due 0 key e (by simp [items]) held unpinned
        rw [items, List.length_cons] at first
        obtain ⟨f, frequent⟩ := Nat.exists_eq_add_one.mpr (passes.resolve_left (by dsimp only at unpinned; omega))
        rw [frequent] at first
        simp only [frequent, Nat.add_sub_cancel]
        rw [Nat.add_mul] at first
        omega
    · have queue : (s.main.remove key (e.charge key)).items = rest := by simp [Fifo.remove, items]
      intro i k e' there inside unpinned
      simp only [free, queue] at there inside ⊢
      have other : k ≠ key := by
        rintro rfl
        exact fresh (List.mem_of_getElem? there)
      rw [Function.update_of_ne other] at inside
      have visits := later i k e' there inside unpinned
      rw [Nat.mul_add] at visits
      omega

/-- The guard covers one visit to each entry of `small` and the passes over `main` that follow. The
entries that came from `small` stand behind the old ones, with no frequency left. -/
def Ahead (s : Shard) (guard : ℕ) : Prop :=
  ∃ old new, s.main.items = old ++ new ∧ (∀ key ∈ new, ∀ e, s.index key = some e → e.freq = 0) ∧
    kMaxFreq * s.main.items.length + old.length + (kMaxFreq + 1) * s.small.items.length < guard

theorem Linked.ahead_evict (linked : s.Linked) :
    s.Ahead ((kMaxFreq + 1) * (s.small.count + s.main.count) + 1) := by
  have small : s.small.count = s.small.items.length := linked.counts .small
  have main : s.main.count = s.main.items.length := linked.counts .main
  refine ⟨s.main.items, [], by simp, by simp, ?_⟩
  rw [small, main]
  unfold kMaxFreq
  omega

/-- A visit to the tail of `small` is one visit of the guard. -/
theorem Linked.ahead_evictSmall (linked : s.Linked) {guard : ℕ} (filled : s.small.items ≠ [])
    (ahead : s.Ahead (guard + 1)) : (s.evictSmall hash).Ahead guard := by
  obtain ⟨old, new, split, young, room⟩ := ahead
  obtain ⟨key, rest, items⟩ := List.exists_cons_of_ne_nil filled
  obtain ⟨e, held, queue⟩ := linked.home .small key (by simp [fifo, items])
  have apart : key ∉ s.main.items := by
    intro inside
    obtain ⟨e', held', queue'⟩ := linked.home .main key inside
    cases held.symm.trans held'
    cases queue.symm.trans queue'
  have popped : (s.small.remove key (e.charge key)).items = rest := by simp [Fifo.remove, items]
  rw [items, List.length_cons] at room
  unfold evictSmall
  simp only [items, held]
  split
  · refine ⟨old, new ++ [key], by simp [linkMain, Fifo.pushHead, split], ?_, ?_⟩
    · intro k inside e' indexed
      by_cases same : k = key
      · subst same
        simp only [linkMain, Function.update_self, Option.some_inj] at indexed
        rw [← indexed]
      · simp only [linkMain, Function.update_of_ne same] at indexed
        exact young k (by simpa [same] using inside) e' indexed
    · simp only [linkMain, Fifo.pushHead, popped, List.length_append, List.length_singleton]
      unfold kMaxFreq at room ⊢
      omega
  · obtain ⟨ghost, same⟩ := ghostAdd_eq { s with small := s.small.remove key (e.charge key) } (hash key)
    rw [same]
    refine ⟨old, new, split, ?_, ?_⟩
    · intro k inside e' indexed
      have other : k ≠ key := by
        rintro rfl
        exact apart (by rw [split]; exact List.mem_append_right _ inside)
      simp only [free, Function.update_of_ne other] at indexed
      exact young k inside e' indexed
    · simp only [free, popped]
      unfold kMaxFreq at room ⊢
      omega

/-- Once `small` is left alone, the guard covers the passes over `main`. -/
theorem Linked.due_of_ahead (linked : s.Linked) {guard : ℕ} (ahead : s.Ahead guard) : s.Due (guard - 1) := by
  obtain ⟨old, new, split, young, room⟩ := ahead
  intro i key e there held _
  have inside := (List.getElem?_eq_some_iff.mp there).1
  rcases Nat.lt_or_ge i old.length with before | after
  · have low := Nat.mul_le_mul_right s.main.items.length (linked.freq key e held)
    omega
  · rw [split, List.getElem?_append_right after] at there
    rw [young key (List.mem_of_getElem? there) e held]
    unfold kMaxFreq at room
    omega

private theorem sum_filter_le (l : List DocKey) (keep : DocKey → Bool) (weight : DocKey → ℕ) :
    ((l.filter keep).map weight).sum ≤ (l.map weight).sum :=
  (List.filter_sublist.map weight).sum_le_sum fun _ _ => Nat.zero_le _

theorem Linked.unpinnedBytes_le (linked : s.Linked) : s.unpinnedBytes ≤ s.bytes := by
  have small : s.small.bytes = (s.small.items.map s.chargeAt).sum := linked.bytes .small
  have main : s.main.bytes = (s.main.items.map s.chargeAt).sum := linked.bytes .main
  rw [Shard.bytes, small, main, ← List.sum_append, ← List.map_append]
  exact sum_filter_le ..

/-- With nothing due in `main`, what eviction may still free is in `small`. -/
theorem Linked.unpinnedBytes_of_due (linked : s.Linked) (due : s.Due 0) : s.unpinnedBytes ≤ s.small.bytes := by
  have small : s.small.bytes = (s.small.items.map s.chargeAt).sum := linked.bytes .small
  have none : s.main.items.filter s.unpinned = [] := by
    rw [List.filter_eq_nil_iff]
    intro key inside free
    obtain ⟨i, there⟩ := List.getElem?_of_mem inside
    obtain ⟨e, held, _⟩ := linked.home .main key inside
    have visits := due i key e there held (by simpa [unpinned, held] using free)
    omega
  rw [unpinnedBytes, List.filter_append, none, List.append_nil, small]
  exact sum_filter_le ..

/-- `small` is within its share, or there is nothing on it to visit. -/
theorem Linked.small_le (linked : s.Linked) (rests : ¬ (s.smallBudget < s.small.bytes ∧ s.small.items ≠ [])) :
    s.small.bytes ≤ s.smallBudget := by
  have small : s.small.bytes = (s.small.items.map s.chargeAt).sum := linked.bytes .small
  by_contra past
  apply rests
  refine ⟨by omega, ?_⟩
  intro none
  rw [none] at small
  simp at small
  omega

theorem Linked.main_eq_zero (linked : s.Linked) (none : s.main.items = []) : s.main.bytes = 0 := by
  have main : s.main.bytes = (s.main.items.map s.chargeAt).sum := linked.bytes .main
  rw [main, none]
  rfl

theorem evictSmall_budget (hash : DocKey → UInt64) (s : Shard) :
    (s.evictSmall hash).budget = s.budget ∧ (s.evictSmall hash).smallBudget = s.smallBudget := by
  unfold evictSmall
  split
  · exact ⟨rfl, rfl⟩
  split
  · exact ⟨rfl, rfl⟩
  dsimp only
  split
  · exact ⟨rfl, rfl⟩
  · unfold ghostAdd
    split <;> exact ⟨rfl, rfl⟩

theorem evictMain_budget (s : Shard) : s.evictMain.budget = s.budget ∧ s.evictMain.smallBudget = s.smallBudget ∧
    s.evictMain.small = s.small := by
  unfold evictMain
  split
  · exact ⟨rfl, rfl, rfl⟩
  split
  · exact ⟨rfl, rfl, rfl⟩
  dsimp only
  split <;> exact ⟨rfl, rfl, rfl⟩

theorem insert_budget (hash : DocKey → UInt64) (s : Shard) (key : DocKey) (e : Entry) :
    (s.insert hash key e).budget = s.budget ∧ (s.insert hash key e).smallBudget = s.smallBudget := by
  unfold insert
  split <;> exact ⟨rfl, rfl⟩

theorem replace_budget (hash : DocKey → UInt64) (s : Shard) (key : DocKey) (content : Content)
    (sharedCapacity : Option ℕ) :
    (s.replace hash key content sharedCapacity).budget = s.budget ∧
      (s.replace hash key content sharedCapacity).smallBudget = s.smallBudget := by
  have detached : (s.detach key).budget = s.budget ∧ (s.detach key).smallBudget = s.smallBudget := by
    unfold detach
    split
    · exact ⟨rfl, rfl⟩
    · rw [unlink_eq, budget_setFifo, smallBudget_setFifo]
      exact ⟨rfl, rfl⟩
  unfold replace
  exact ⟨(insert_budget hash _ key _).1.trans detached.1, (insert_budget hash _ key _).2.trans detached.2⟩

theorem erase_budget (s : Shard) (key : DocKey) :
    (s.erase key).budget = s.budget ∧ (s.erase key).smallBudget = s.smallBudget := by
  unfold erase
  split
  · exact ⟨rfl, rfl⟩
  · simp only [free, unlink_eq, budget_setFifo, smallBudget_setFifo, and_self]

theorem evictLoop_budget (hash : DocKey → UInt64) (guard : ℕ) (s : Shard) :
    (evictLoop hash guard s).budget = s.budget ∧ (evictLoop hash guard s).smallBudget = s.smallBudget := by
  induction guard generalizing s with
  | zero => exact ⟨rfl, rfl⟩
  | succ guard ih =>
    obtain ⟨budget, smallBudget⟩ := evictSmall_budget hash s
    obtain ⟨budget', smallBudget', _⟩ := evictMain_budget s
    unfold evictLoop
    split_ifs
    · exact ⟨rfl, rfl⟩
    · exact ⟨(ih _).1.trans budget, (ih _).2.trans smallBudget⟩
    · exact ⟨(ih _).1.trans budget', (ih _).2.trans smallBudget'⟩
    · exact ⟨(ih _).1.trans budget, (ih _).2.trans smallBudget⟩
    · exact ⟨rfl, rfl⟩

/-- Nothing becomes free to evict if no entry is added, unpinned or charged anew. -/
theorem unpinnedBytes_mono {t : Shard} (small : t.small.items.Sublist s.small.items)
    (main : t.main.items.Sublist s.main.items)
    (kept : ∀ key, t.unpinned key = true → s.unpinned key = true ∧ t.chargeAt key = s.chargeAt key) :
    t.unpinnedBytes ≤ s.unpinnedBytes := by
  have charges : ((t.small.items ++ t.main.items).filter t.unpinned).map t.chargeAt =
      ((t.small.items ++ t.main.items).filter t.unpinned).map s.chargeAt := by
    apply List.map_congr_left
    intro key inside
    exact (kept key (List.mem_filter.mp inside).2).2
  have fewer : ((t.small.items ++ t.main.items).filter t.unpinned).Sublist
      ((s.small.items ++ s.main.items).filter s.unpinned) := by
    refine .trans (List.monotone_filter_right _ fun key free => (kept key free).1) ?_
    exact (small.append main).filter s.unpinned
  rw [unpinnedBytes, unpinnedBytes, charges]
  exact (fewer.map s.chargeAt).sum_le_sum fun _ _ => Nat.zero_le _

/-- A change to one entry that leaves its charge and does not unpin it. -/
theorem unpinnedBytes_setIndex {key : DocKey} {e e' : Entry} (held : s.index key = some e)
    (charge : e'.charge key = e.charge key) (pins : e'.pending = 0 → e.pending = 0) :
    (s.setIndex key (some e')).unpinnedBytes ≤ s.unpinnedBytes := by
  refine unpinnedBytes_mono (.refl _) (.refl _) fun k free => ?_
  by_cases same : k = key
  · subst same
    simp only [unpinned, setIndex, Function.update_self, Option.any_some, decide_eq_true_eq] at free
    simp [unpinned, chargeAt, setIndex, held, charge, pins free]
  · simpa [unpinned, chargeAt, setIndex, same] using free

private theorem unlink_sublist (key : DocKey) (e : Entry) : (s.unlink key e).small.items.Sublist s.small.items ∧
    (s.unlink key e).main.items.Sublist s.main.items := by
  unfold unlink
  cases e.queue
  · exact ⟨List.erase_sublist (a := key) (l := s.small.items), .refl _⟩
  · exact ⟨.refl _, List.erase_sublist (a := key) (l := s.main.items)⟩

theorem unpinnedBytes_erase (key : DocKey) : (s.erase key).unpinnedBytes ≤ s.unpinnedBytes := by
  unfold erase
  cases held : s.index key with
  | none => exact le_rfl
  | some e =>
    have index : (s.unlink key e).index = s.index := by rw [unlink_eq, index_setFifo]
    refine unpinnedBytes_mono (unlink_sublist key e).1 (unlink_sublist key e).2 fun k evictable => ?_
    by_cases same : k = key
    · subst same
      simp [unpinned, free] at evictable
    · simpa [unpinned, chargeAt, free, same, index] using evictable

end Shard

namespace FlatShard

variable {P : Type*} {hash : DocKey → UInt64} {f : FlatShard P} {s : Shard} {items : Queue → List P}

theorem Represents.chargeAt_eq {loose : Option P} (rel : Represents hash f s items loose) {p : P} {n : Node}
    (held : f.heap p = some n) : s.chargeAt n.key = n.charge := by
  rw [Shard.chargeAt, rel.entries p n held]
  rfl

theorem Represents.linked (rel : Represents hash f s items none) : s.Linked where
  nodup := fun q => by
    rw [rel.fifos q]
    apply (rel.chain q).nodup.map_on
    intro p inside p' inside' same
    obtain ⟨n, held, _⟩ := rel.home q p inside
    obtain ⟨n', held', _⟩ := rel.home q p' inside'
    rw [keyAt_eq held, keyAt_eq held'] at same
    exact rel.distinct p p' n n' held held' same
  home := fun q key inside => by
    rw [rel.fifos q] at inside
    obtain ⟨p, there, rfl⟩ := List.mem_map.mp inside
    obtain ⟨n, held, queue⟩ := rel.home q p there
    rw [keyAt_eq held]
    exact ⟨n.entry, rel.entries p n held, queue⟩
  bytes := fun q => by
    rw [rel.fifos q, List.map_map, rel.bytes q]
    dsimp only
    congr 1
    apply List.map_congr_left
    intro p inside
    obtain ⟨n, held, _⟩ := rel.home q p inside
    rw [Function.comp, keyAt_eq held, rel.chargeAt_eq held, FlatShard.chargeAt_eq held]
  counts := fun q => by
    rw [rel.fifos q, List.length_map]
    exact rel.counts q
  freq := fun key e held => by
    obtain ⟨p, n, live, rfl⟩ := rel.resident key e held
    cases held.symm.trans (rel.entries p n live)
    exact rel.freq p n live

variable [DecidableEq P]

/-- The guard is long enough, whatever the queues hold. -/
theorem Represents.evictLoop_within (guard : ℕ) : ∀ {f : FlatShard P} {s : Shard} {items : Queue → List P},
    Represents hash f s items none → s.smallBudget ≤ s.budget →
    (s.Ahead guard ∨ s.small.bytes ≤ s.smallBudget ∧ s.Due (guard - 1)) →
    (Shard.evictLoop hash guard s).unpinnedBytes ≤ (Shard.evictLoop hash guard s).budget := by
  induction guard with
  | zero =>
    intro f s items rel share phase
    rcases phase with ⟨_, _, _, _, room⟩ | ⟨low, due⟩
    · omega
    · have free := rel.linked.unpinnedBytes_of_due due
      unfold Shard.evictLoop
      omega
  | succ guard ih =>
    intro f s items rel share phase
    have linked := rel.linked
    unfold Shard.evictLoop
    split_ifs with within past main rest
    · exact linked.unpinnedBytes_le.trans within
    · obtain ⟨_, evicted⟩ := rel.evictSmall
      obtain ⟨budget, smallBudget⟩ := Shard.evictSmall_budget hash s
      rcases phase with ahead | ⟨low, _⟩
      · exact ih evicted (by omega) (.inl (linked.ahead_evictSmall past.2 ahead))
      · omega
    · obtain ⟨_, evicted⟩ := rel.evictMain
      obtain ⟨budget, smallBudget, small⟩ := Shard.evictMain_budget s
      have low := linked.small_le past
      have due : s.Due guard := by
        rcases phase with ahead | ⟨_, due⟩
        · exact linked.due_of_ahead ahead
        · exact due
      exact ih evicted (by omega) (.inr ⟨by rw [small, smallBudget]; exact low, linked.due_evictMain due⟩)
    · have low := linked.small_le past
      have empty := linked.main_eq_zero (not_not.mp main)
      rw [Shard.bytes] at within
      omega
    · have low := linked.small_le past
      have empty := linked.main_eq_zero (not_not.mp main)
      rw [Shard.bytes] at within
      omega

/-- Eviction leaves a shard within its budget, or with nothing to free. -/
theorem Represents.evict_within (rel : Represents hash f s items none) (share : s.smallBudget ≤ s.budget) :
    (s.evict hash).unpinnedBytes ≤ (s.evict hash).budget :=
  rel.evictLoop_within _ share (.inl rel.linked.ahead_evict)

/-- The shard holds at most its budget beyond what writes pin. -/
def Within (hash : DocKey → UInt64) (f : FlatShard P) : Prop :=
  ∃ s items, Represents hash f s items none ∧ s.smallBudget ≤ s.budget ∧ s.unpinnedBytes ≤ s.budget

theorem Represents.within_evict (rel : Represents hash f s items none) (share : s.smallBudget ≤ s.budget) :
    (f.evict hash).Within hash := by
  obtain ⟨items', evicted⟩ := rel.evict
  obtain ⟨budget, smallBudget⟩ := Shard.evictLoop_budget hash _ s
  exact ⟨_, items', evicted, by rw [Shard.evict, budget, smallBudget]; exact share, rel.evict_within share⟩

theorem Within.putEntry {p : P} (within : f.Within hash) (vacant : f.heap p = none) (key : DocKey)
    (content : Content) (sharedCapacity : Option ℕ) : (f.putEntry hash p key content sharedCapacity).Within hash := by
  obtain ⟨s, items, rel, share, _⟩ := within
  obtain ⟨_, replaced⟩ := rel.replace vacant key content sharedCapacity
  apply replaced.within_evict
  obtain ⟨budget, smallBudget⟩ := Shard.replace_budget hash s key content sharedCapacity
  rw [budget, smallBudget]
  exact share

theorem Within.putIfAbsent {p : P} (within : f.Within hash) (vacant : f.heap p = none) (doorkeeper : Bool)
    (key : DocKey) (doc : Version) : (f.putIfAbsent hash doorkeeper p key doc).Within hash := by
  obtain ⟨s, items, rel, share, bound⟩ := within
  unfold FlatShard.putIfAbsent
  split_ifs with held closed
  · exact ⟨s, items, rel, share, bound⟩
  · have remembered := rel.ghostAdd (hash key)
    obtain ⟨ghost, same⟩ := s.ghostAdd_eq (hash key)
    rw [same] at remembered
    exact ⟨_, items, remembered, share, bound⟩
  · have absent : s.index key = none := by
      rw [← rel.lookup_eq_none, lookup, Option.not_isSome_iff_eq_none.mp held]
      rfl
    obtain ⟨_, inserted⟩ := rel.insert (n := ⟨key, doc, 0, 0, .small, none⟩) vacant absent (Nat.zero_le _)
    apply inserted.within_evict
    obtain ⟨budget, smallBudget⟩ := Shard.insert_budget hash s key _
    rw [budget, smallBudget]
    exact share

/-- The release of the last pin evicts if the shard is over budget, and any other release frees nothing. -/
theorem Within.markPersisted (within : f.Within hash) (key : DocKey) (seqno : ℕ) :
    (f.markPersisted hash key seqno).Within hash := by
  obtain ⟨s, items, rel, share, bound⟩ := within
  unfold FlatShard.markPersisted
  cases found : f.lookup hash key with
  | none => exact ⟨s, items, rel, share, bound⟩
  | some old =>
    obtain ⟨p, n⟩ := old
    have held := (rel.lookup_eq_some.mp found).1
    have marked := rel.mark held seqno
    have counted := marked.count (fetchSub 64 f.pendingItems 1)
    dsimp only
    split_ifs with last past
    · exact counted.within_evict share
    · refine ⟨_, items, counted, share, counted.linked.unpinnedBytes_le.trans ?_⟩
      rw [counted.bytes_eq]
      exact (Nat.le_of_not_lt past).trans_eq rel.budget.symm
    · refine ⟨_, items, marked, share, le_trans (Shard.unpinnedBytes_setIndex (rel.entries p n held) ?_ ?_) bound⟩
      · exact Entry.charge_noteSeqno ..
      · intro zero
        have two : n.entry.pending ≠ 1 := fun one => last (UInt32.toNat_inj.mp one)
        dsimp only [fetchSub] at zero
        split at zero <;> omega

theorem Within.erase (within : f.Within hash) (key : DocKey) : (f.erase hash key).Within hash := by
  obtain ⟨s, items, rel, share, bound⟩ := within
  obtain ⟨items', erased⟩ := rel.erase key
  obtain ⟨budget, smallBudget⟩ := Shard.erase_budget s key
  exact ⟨_, items', erased, by rw [budget, smallBudget]; exact share,
    (Shard.unpinnedBytes_erase key).trans (bound.trans_eq budget.symm)⟩

theorem Within.get (within : f.Within hash) (key : DocKey) : (f.get hash key).1.Within hash := by
  obtain ⟨s, items, rel, share, bound⟩ := within
  unfold FlatShard.get
  cases found : f.lookup hash key with
  | none => exact ⟨s, items, rel, share, bound⟩
  | some old =>
    obtain ⟨p, n⟩ := old
    have held := (rel.lookup_eq_some.mp found).1
    have touched := rel.touch held
    have shape : s.touch n.key = s.setIndex n.key (some { n.entry with
        freq := if n.entry.freq < kMaxFreq then n.entry.freq + 1 else n.entry.freq }) := by
      simp only [Shard.touch, rel.entries p n held, Shard.setIndex]
    rw [shape] at touched
    refine ⟨_, items, touched, share, le_trans (Shard.unpinnedBytes_setIndex (rel.entries p n held) ?_ ?_) bound⟩
    · rfl
    · exact id

/-- Of the bytes a shard holds, those its budget does not cover are pinned. -/
theorem Within.bytes_le (within : f.Within hash) :
    ∃ pinned : Finset P, (∀ p, p ∈ pinned ↔ ∃ n, f.heap p = some n ∧ 0 < n.pending) ∧
      f.bytes ≤ f.budget + ∑ p ∈ pinned, f.chargeAt p := by
  obtain ⟨s, items, rel, share, bound⟩ := within
  have nodup : (items .small ++ items .main).Nodup := by
    refine (rel.chain .small).nodup.append (rel.chain .main).nodup fun p first second => ?_
    cases rel.eq_of_mem first second
  have live : ∀ p, p ∈ items .small ++ items .main ↔ ∃ n, f.heap p = some n := by
    intro p
    rw [List.mem_append]
    constructor
    · rintro (inside | inside)
      · exact (rel.home _ p inside).imp fun _ held => held.1
      · exact (rel.home _ p inside).imp fun _ held => held.1
    · rintro ⟨n, held⟩
      have inside := (rel.listed p n held).resolve_right (by simp)
      cases queue : n.queue with
      | small => exact .inl (queue ▸ inside)
      | main => exact .inr (queue ▸ inside)
  have total : f.bytes = ∑ p ∈ (items .small ++ items .main).toFinset, f.chargeAt p := by
    rw [List.sum_toFinset _ nodup, List.map_append, List.sum_append, ← rel.bytes, ← rel.bytes]
    rfl
  have free : s.unpinnedBytes =
      ∑ p ∈ (items .small ++ items .main).toFinset.filter (fun p => ¬ (f.heap p).any (fun n => 0 < n.pending)),
        f.chargeAt p := by
    have small : s.small.items = (items .small).map f.keyAt := congrArg Fifo.items (rel.fifos .small)
    have main : s.main.items = (items .main).map f.keyAt := congrArg Fifo.items (rel.fifos .main)
    have same : (items .small ++ items .main).filter (s.unpinned ∘ f.keyAt) =
        (items .small ++ items .main).filter fun p => ¬ (f.heap p).any fun n => 0 < n.pending := by
      apply List.filter_congr
      intro p inside
      obtain ⟨n, held⟩ := (live p).mp inside
      have zero : n.entry.pending = 0 ↔ ¬ 0 < n.pending := by
        rw [UInt32.lt_iff_toNat_lt]
        exact Nat.pos_iff_ne_zero.not_left.symm
      simp [Shard.unpinned, keyAt_eq held, rel.entries p n held, held, zero]
    have set : ((items .small ++ items .main).filter fun p => ¬ (f.heap p).any fun n => 0 < n.pending).toFinset =
        (items .small ++ items .main).toFinset.filter fun p => ¬ (f.heap p).any fun n => 0 < n.pending := by
      ext p
      simp only [List.mem_toFinset, List.mem_filter, Finset.mem_filter, decide_eq_true_eq]
    rw [← set, List.sum_toFinset _ (nodup.filter _), Shard.unpinnedBytes, small, main, ← List.map_append,
      List.filter_map, List.map_map, same]
    congr 1
    apply List.map_congr_left
    intro p inside
    obtain ⟨n, held⟩ := (live p).mp (List.mem_filter.mp inside).1
    rw [Function.comp, keyAt_eq held, rel.chargeAt_eq held, FlatShard.chargeAt_eq held]
  refine ⟨(items .small ++ items .main).toFinset.filter fun p => (f.heap p).any fun n => 0 < n.pending, ?_, ?_⟩
  · intro p
    rw [Finset.mem_filter, List.mem_toFinset, live, Option.any_eq_true]
    simp only [decide_eq_true_eq]
    exact ⟨fun ⟨_, found⟩ => found, fun ⟨n, held, pinned⟩ => ⟨⟨n, held⟩, n, held, pinned⟩⟩
  · rw [total, ← Finset.sum_filter_add_sum_filter_not _ (fun p => (f.heap p).any fun n => 0 < n.pending), ← free]
    have budget := rel.budget
    omega

end FlatShard

namespace FlatCache

variable {P : Type*} {hash : DocKey → UInt64} {shardMask : UInt64} {c : FlatCache P}

theorem within_setShard {key : DocKey} {next : FlatShard P} (within : ∀ i, (c.shards i).Within hash)
    (there : next.Within hash) (i : ℕ) : ((c.setShard hash shardMask key next).shards i).Within hash := by
  by_cases same : i = shardFor hash shardMask key
  · simpa only [setShard, same, Function.update_self] using there
  · simpa only [setShard, Function.update_of_ne same] using within i

/-- The share of `small` is part of the budget, also where its product wraps. -/
theorem smallBudget_le (perShard : ℕ) : perShard * kSmallPercent % 2 ^ 64 / 100 ≤ perShard := by
  have less := Nat.mod_le (perShard * kSmallPercent) (2 ^ 64)
  unfold kSmallPercent at less ⊢
  omega

variable [DecidableEq P]

/-- Every call leaves every shard within its budget. -/
theorem within_apply (within : ∀ i, (c.shards i).Within hash) {op : CacheOp P}
    (able : c.fresh hash shardMask op = true) (i : ℕ) : ((c.apply hash shardMask op).1.shards i).Within hash := by
  cases op with
  | put key content address =>
    exact within_setShard within ((within _).putEntry (Option.isNone_iff_eq_none.mp able) key content none) i
  | putShared key content capacity address =>
    exact within_setShard within ((within _).putEntry (Option.isNone_iff_eq_none.mp able) key content (some capacity)) i
  | putIfAbsent doorkeeper key seqno value flags expiry datatype address =>
    exact within_setShard within ((within _).putIfAbsent (Option.isNone_iff_eq_none.mp able) doorkeeper key _) i
  | markPersisted key seqno => exact within_setShard within ((within _).markPersisted key seqno) i
  | erase key => exact within_setShard within ((within _).erase key) i
  | get key => exact within_setShard within ((within _).get key) i
  | getCopy key bufCap =>
    simp only [FlatCache.apply, FlatShard.getCopy_eq]
    exact within_setShard within ((within _).get key) i
  | setBudget maxBytes =>
    simp only [FlatCache.apply]
    split
    · obtain ⟨s, items, rel, _⟩ := within i
      exact (rel.setBudget _ _).within_evict (smallBudget_le _)
    · exact within i

theorem within_of_reach {maxBytes : ℕ} (reached : Reach (step hash shardMask) (empty shardMask maxBytes) c) (i : ℕ) :
    (c.shards i).Within hash := by
  have start : ∀ i, ((empty shardMask maxBytes : FlatCache P).shards i).Within hash :=
    fun i => ⟨_, _, .empty hash _, smallBudget_le _, Nat.zero_le _⟩
  refine Reach.invariant (P := fun c : FlatCache P => ∀ i, (c.shards i).Within hash) start (fun before taken => ?_)
    reached i
  obtain ⟨able, _, rfl⟩ := step_eq_some hash shardMask taken
  exact within_apply before able

/-- In every shard between calls, the bytes held are at most the budget and the charge of pinned entries. -/
theorem shard_within_budget {maxBytes : ℕ} (reached : Reach (step hash shardMask) (empty shardMask maxBytes) c)
    (i : ℕ) :
    (∃ pinned : Finset P, (∀ p, p ∈ pinned ↔ ∃ n, (c.shards i).heap p = some n ∧ 0 < n.pending) ∧
      ((c.shards i).fifos .small).bytes + ((c.shards i).fifos .main).bytes ≤
        (c.shards i).budget + ∑ p ∈ pinned, (c.shards i).chargeAt p) ∧
    ((∀ p n, (c.shards i).heap p = some n → n.pending = 0) →
      ((c.shards i).fifos .small).bytes + ((c.shards i).fifos .main).bytes ≤ (c.shards i).budget) := by
  obtain ⟨pinned, member, bound⟩ := (within_of_reach reached i).bytes_le
  refine ⟨⟨pinned, member, bound⟩, fun free => ?_⟩
  have none : pinned = ∅ := by
    rw [Finset.eq_empty_iff_forall_notMem]
    intro p inside
    obtain ⟨n, held, positive⟩ := (member p).mp inside
    rw [free p n held] at positive
    exact UInt32.lt_irrefl _ positive
  rw [none, Finset.sum_empty, Nat.add_zero] at bound
  exact bound

/-- A cache without memory keeps what writes pin, and frees it with the last pin. -/
theorem shard_within_budget_pinned :
    ∃ c : FlatCache ℕ, ((c.shards 0).fifos .small).bytes + ((c.shards 0).fifos .main).bytes = 84 ∧
      ∃ pinned : Finset ℕ, (∀ p, p ∈ pinned ↔ ∃ n, (c.shards 0).heap p = some n ∧ 0 < n.pending) ∧
        ((c.shards 0).fifos .small).bytes + ((c.shards 0).fifos .main).bytes ≤
          (c.shards 0).budget + ∑ p ∈ pinned, (c.shards 0).chargeAt p := by
  obtain ⟨c, reached, bytes⟩ : ∃ c, Reach (step (fun _ => 3) 0) (empty 0 0 : FlatCache ℕ) c ∧
      ((c.shards 0).fifos .small).bytes + ((c.shards 0).fifos .main).bytes = 84 :=
    exists_reach [(.put (1, [7]) ⟨[1], 0, 0, 0, false⟩ 10, .done), (.put (1, [8]) ⟨[2], 0, 0, 0, false⟩ 11, .done),
      (.markPersisted (1, [7]) 5, .done)] (by decide +kernel)
  exact ⟨c, bytes, (shard_within_budget reached 0).1⟩

end FlatCache

end FluxKV.Cache
