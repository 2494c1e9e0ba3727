import FluxKV.Engine.Order
import FluxKV.Engine.Pins

/-! # Which pins are released

The writer marks the requests it kept. A request that the sort dropped as a duplicate returns its queue
bytes and is answered like the others, but is never marked persisted, so its pin stays on the entry.
`pins_released_iff` says which batches are marked in full, and what a drained server has left pinned.
-/

namespace FluxKV.Engine

open Protocol Cache Counting Machine

/-- The writes a vbucket's batches lost as duplicates. -/
def duplicates (mode : BatchSort) (threshold : ℚ) (batches : List (List Request)) : List Request :=
  batches.flatMap fun batch => (planBatch mode threshold batch).2

section Duplicates

variable {mode : BatchSort} {threshold : ℚ} {batches : List (List Request)} {batch : List Request} {r : Request}

theorem mem_batch_of_dropped (dropped : r ∈ (planBatch mode threshold batch).2) : r ∈ batch :=
  (planBatch_perm mode threshold batch).subset (List.mem_append_right _ dropped)

theorem mem_flatten_of_duplicates (dropped : r ∈ duplicates mode threshold batches) : r ∈ batches.flatten := by
  obtain ⟨batch, member, dropped⟩ := List.mem_flatMap.mp dropped
  exact List.mem_flatten.mpr ⟨batch, member, mem_batch_of_dropped dropped⟩

/-- A write is a duplicate of its own batch or of none. -/
theorem mem_duplicates_iff (distinct : batches.flatten.Nodup) (member : batch ∈ batches) (inBatch : r ∈ batch) :
    r ∈ duplicates mode threshold batches ↔ r ∈ (planBatch mode threshold batch).2 := by
  refine ⟨fun dropped => ?_, fun dropped => List.mem_flatMap.mpr ⟨batch, member, dropped⟩⟩
  obtain ⟨batch', member', dropped⟩ := List.mem_flatMap.mp dropped
  have same : batch' = batch := by
    by_contra differ
    have symmetric : Std.Symm (List.Disjoint : List Request → List Request → Prop) := ⟨fun _ _ apart => apart.symm⟩
    exact (List.nodup_flatten.mp distinct).2.forall member' member differ (mem_batch_of_dropped dropped) inBatch
  rwa [same] at dropped

theorem duplicates_eq_nil_iff :
    duplicates mode threshold batches = [] ↔ ∀ batch ∈ batches, KeepsAll mode threshold batch := by
  simp only [duplicates, List.flatMap_eq_nil_iff, planBatch_dropped_eq_nil_iff]

end Duplicates

namespace State

variable {cfg : Config} {s : State cfg} {e : Event}

/-- The writes a vbucket has lost as duplicates so far. -/
def droppedOf (s : State cfg) (vb : UInt16) : List Request :=
  duplicates cfg.batchSort cfg.sortDupThreshold (s.hist.handed vb)

/-- What was dropped was dropped from a batch. -/
def Drops (s : State cfg) : Prop := ∀ r, s.hist.dropped.count r = (s.droppedOf r.vbucket).count r

theorem Drops.next (homes : s.Homes) (drops : s.Drops) (e : Event) : (s.next e).Drops := by
  cases e with
  | write vb ok =>
    intro r
    have before := drops r
    simp only [State.next, List.count_append, droppedOf] at before ⊢
    rw [before]
    by_cases same : r.vbucket = vb
    · subst same
      rw [Function.update_self, duplicates, duplicates, List.flatMap_append, List.count_append,
        List.flatMap_singleton]
    · have none : (planBatch cfg.batchSort cfg.sortDupThreshold (s.writer vb).batch).2.count r = 0 :=
        List.count_eq_zero.mpr fun dropped => same ((homes.writer vb).1 r (mem_batch_of_dropped dropped))
      rw [Function.update_of_ne same, none, Nat.add_zero]
  | _ => exact drops

/-- The order of writes and the fate of duplicates. -/
structure Sorted (s : State cfg) : Prop where
  ordered : s.Ordered
  drops : s.Drops

theorem Sorted.initial (maxBytes : ℕ) (store : UInt16 → Store) (seqnos : UInt16 → ℕ) :
    (State.initial cfg maxBytes store seqnos).Sorted :=
  ⟨.initial maxBytes store seqnos, fun _ => rfl⟩

theorem Sorted.step {t : State cfg} (sorted : s.Sorted) (taken : s.step e = some t) : t.Sorted := by
  have ordered := sorted.ordered.step taken
  obtain ⟨_, rfl⟩ := step_eq_some.mp taken
  exact ⟨ordered, sorted.drops.next sorted.ordered.flow.homes e⟩

/-- A swept batch was handed over, unless the writer has something left to mark. -/
theorem Sorted.swept_cases (sorted : s.Sorted) {vb : UInt16} (done : (s.writer vb).unmarked = []) {batch : List Request}
    (swept : batch ∈ s.hist.swept vb) : batch ∈ s.hist.handed vb ∨ batch = [] := by
  rw [sorted.ordered.flow.accounts.swept vb] at swept
  apply (List.mem_append.mp swept).imp_right
  intro unwritten
  cases phase : (s.writer vb).phase <;> simp_all [Writer.unwritten, Writer.unmarked]

/-- Once its writer is done, a batch is marked in full exactly if it kept all its writes. -/
theorem Sorted.marked_once_iff (sorted : s.Sorted) {vb : UInt16} (done : (s.writer vb).unmarked = [])
    {batch : List Request} (swept : batch ∈ s.hist.swept vb) :
    (∀ r ∈ batch, s.hist.marked.count r = 1) ↔ KeepsAll cfg.batchSort cfg.sortDupThreshold batch := by
  rcases sorted.swept_cases done swept with handed | rfl
  · have distinct := (swept_nodup sorted.ordered vb).sublist (handed_sublist sorted.ordered vb)
    have marked : ∀ r ∈ batch, s.hist.marked.count r = 1 ↔
        r ∉ (planBatch cfg.batchSort cfg.sortDupThreshold batch).2 := by
      intro r inBatch
      have inside : r ∈ (s.hist.swept vb).flatten := List.mem_flatten.mpr ⟨batch, swept, inBatch⟩
      obtain rfl := swept_ofVbucket sorted.ordered vb r inside
      have once := List.count_eq_one_of_mem (swept_nodup sorted.ordered _) inside
      have all := sorted.ordered.flow.accounts.marked r
      have drops := sorted.drops r
      rw [done, List.count_nil] at all
      rw [← mem_duplicates_iff distinct handed inBatch, ← List.count_eq_zero]
      simp only [droppedOf] at drops
      omega
    rw [← planBatch_dropped_eq_nil_iff, List.eq_nil_iff_forall_not_mem]
    constructor
    · intro all r dropped
      have inBatch := mem_batch_of_dropped dropped
      exact (marked r inBatch).mp (all r inBatch) dropped
    · exact fun none r inBatch => (marked r inBatch).mpr (none r)
  · exact ⟨fun _ => .inr List.nodup_nil, fun _ _ member => (List.not_mem_nil member).elim⟩

/-- No write is refused. -/
def Admits (_ : State cfg) (e : Event) : Prop := e.refuses = []

instance (s : State cfg) (e : Event) : Decidable (s.Admits e) := inferInstanceAs (Decidable (_ = _))

/-- No write is refused, and the pins of a key fit in 32 bits. -/
def AdmitsPinned (s : State cfg) (e : Event) : Prop := s.Admits e ∧ s.FitsPins e

instance (s : State cfg) (e : Event) : Decidable (s.AdmitsPinned e) := inferInstanceAs (Decidable (_ ∧ _))

/-- What holds while no write is refused. -/
structure Unrefused (s : State cfg) : Prop where
  sorted : s.Sorted
  refused : s.hist.refused = []

/-- What holds besides while the pins of a cache fit. -/
structure Pinning (s : State cfg) : Prop where
  unrefused : s.Unrefused
  exact : s.PinsExact
  counted : s.cache.Counted

private theorem counted_next (exact : s.PinsExact) (counted : s.cache.Counted) (fits : s.FitsPins e)
    (able : s.enabled e) : (s.next e).cache.Counted := by
  cases e with
  | put r cap =>
    refine counted.map fun c member counted => counted.put _ _ ?_
    rw [← BucketCache.pending_of_mem member, exact.pending]
    exact fits r (List.mem_singleton_self r)
  | erase r => exact counted.map fun c _ counted => counted.erase _
  | mark vb r seqno =>
    obtain ⟨pinned, rfl, _⟩ := exact.flow.mem_pins_of_mark able
    refine counted.map fun c member counted => counted.markPersisted _ ?_
    rw [← BucketCache.pending_of_mem member]
    exact exact.pending_pos pinned
  | trim vb key => exact counted.map fun c _ counted => counted.trimShard (Shard.trims_evict _ _)
  | fillDoor i => exact counted.map fun c _ counted => counted.trimShard (Shard.trims_fillDoorkeeper _ _ _)
  | fillInsert i => exact counted.map fun c _ counted => counted.fillInsert _ _
  | touch key => exact counted.map fun c _ counted => counted.trimShard (Shard.trims_touch _ _)
  | setBudget i maxBytes => exact counted.map fun c _ counted => counted.setBudget i maxBytes
  | _ => exact counted

private theorem refused_next_of_admits (refused : s.hist.refused = []) (admits : s.Admits e) :
    (s.next e).hist.refused = [] := by
  cases e with
  | refuse r => cases admits
  | erase r => simp only [next, refused, List.erase_nil]
  | _ => exact refused

theorem Unrefused.step {t : State cfg} (unrefused : s.Unrefused) (admits : s.Admits e) (taken : s.step e = some t) :
    t.Unrefused := by
  have sorted := unrefused.sorted.step taken
  obtain ⟨_, rfl⟩ := step_eq_some.mp taken
  exact ⟨sorted, refused_next_of_admits unrefused.refused admits⟩

theorem Unrefused.initial (maxBytes : ℕ) (store : UInt16 → Store) (seqnos : UInt16 → ℕ) :
    (State.initial cfg maxBytes store seqnos).Unrefused :=
  ⟨.initial maxBytes store seqnos, rfl⟩

theorem Pinning.step {t : State cfg} (pinning : s.Pinning) (admits : s.AdmitsPinned e) (taken : s.step e = some t) :
    t.Pinning := by
  have keeps : s.KeepsPins e := by
    refine ⟨fun r member => ?_, fun r _ w member => ?_, admits.2⟩
    · rw [show e.refuses = [] from admits.1] at member
      exact (List.not_mem_nil member).elim
    · rw [pinning.unrefused.refused] at member
      exact (List.not_mem_nil member).elim
  refine ⟨pinning.unrefused.step admits.1 taken, pinning.exact.step keeps taken, ?_⟩
  obtain ⟨able, rfl⟩ := step_eq_some.mp taken
  exact counted_next pinning.exact pinning.counted admits.2 able

theorem Pinning.initial {maxBytes : ℕ} (cached : 0 < maxBytes) (store : UInt16 → Store) (seqnos : UInt16 → ℕ) :
    (State.initial cfg maxBytes store seqnos).Pinning :=
  ⟨.initial maxBytes store seqnos, .initial cached store seqnos, BucketCache.counted_start maxBytes⟩

theorem Pinning.of_reach {maxBytes : ℕ} (cached : 0 < maxBytes) {store : UInt16 → Store} {seqnos : UInt16 → ℕ}
    (reached : Reach (restrict AdmitsPinned State.step) (State.initial cfg maxBytes store seqnos) s) : s.Pinning :=
  reached.invariant (.initial cached store seqnos) fun pinning taken =>
    pinning.step (restrict_eq_some.mp taken).1 (restrict_eq_some.mp taken).2

/-- Every handler has returned, every write queue is empty and every writer has marked its batch. -/
structure Drained (s : State cfg) : Prop where
  pc : ∀ t, s.pc t = .idle
  vbs : ∀ t vb, s.vbs t vb = []
  list : ∀ vb, s.list vb = []
  writer : ∀ vb, (s.writer vb).unmarked = []

/-- A drained server has left pinned what it dropped. -/
theorem Drained.pins_eq_nil_iff (drained : s.Drained) (sorted : s.Sorted) :
    s.hist.pins = [] ↔ ∀ vb, ∀ batch ∈ s.hist.swept vb, KeepsAll cfg.batchSort cfg.sortDupThreshold batch := by
  have left : ∀ r, s.hist.pins.count r = (s.droppedOf r.vbucket).count r := by
    intro r
    have all := sorted.ordered.flow.accounts.pins r
    rw [drained.pc, drained.vbs, drained.list, drained.writer] at all
    simpa [IoPc.handled, IoPc.spurned, sorted.drops r] using all
  have none : s.hist.pins = [] ↔ ∀ vb, s.droppedOf vb = [] := by
    simp only [List.eq_nil_iff_forall_not_mem]
    constructor
    · intro unpinned vb r dropped
      have swept := (handed_sublist sorted.ordered vb).subset (mem_flatten_of_duplicates dropped)
      obtain rfl := swept_ofVbucket sorted.ordered vb r swept
      exact unpinned r ((mem_iff_of_count_eq (left r)).mpr dropped)
    · exact fun kept r pinned => kept r.vbucket r ((mem_iff_of_count_eq (left r)).mp pinned)
  simp only [none, droppedOf, duplicates_eq_nil_iff]
  refine forall_congr' fun vb => ⟨fun kept batch swept => ?_, fun kept batch handed => kept batch ?_⟩
  · rcases sorted.swept_cases (drained.writer vb) swept with handed | rfl
    · exact kept batch handed
    · exact .inr List.nodup_nil
  · rw [sorted.ordered.flow.accounts.swept vb]
    exact List.mem_append_left _ handed

theorem PinsExact.pins_eq_nil_iff (exact : s.PinsExact) :
    s.hist.pins = [] ↔ ∀ key p, s.cache.contents key = some p → p.pending = 0 := by
  constructor
  · intro none key p held
    rw [← Contents.pending_of_eq held, exact.pending, pinsOf, none, List.countP_nil]
  · intro unpinned
    apply List.eq_nil_iff_forall_not_mem.mpr
    intro r pinned
    obtain ⟨p, held, count⟩ := Contents.exists_of_pending_pos (exact.pending_pos pinned)
    have := unpinned _ p held
    have := exact.pending_pos pinned
    omega

/-- In every run each request of a swept batch is marked persisted once, when its writer is done, exactly
if the batch is not sorted or repeats no key. If no write is refused and the pins of a key stay within 32
bits, a drained server with a cache has no entry pinned, and none counted as pinned, exactly if every batch was
like that. -/
theorem pins_released_iff {maxBytes : ℕ} {store : UInt16 → Store} {seqnos : UInt16 → ℕ} :
    (∀ s : State cfg, Reach State.step (State.initial cfg maxBytes store seqnos) s → ∀ vb,
      (s.writer vb).unmarked = [] → ∀ batch ∈ s.hist.swept vb,
        ((∀ r ∈ batch, s.hist.marked.count r = 1) ↔ KeepsAll cfg.batchSort cfg.sortDupThreshold batch)) ∧
    (0 < maxBytes → ∀ s : State cfg,
      Reach (restrict AdmitsPinned State.step) (State.initial cfg maxBytes store seqnos) s → s.Drained →
        ((∀ key p, s.cache.contents key = some p → p.pending = 0) ∧ s.cache.pendingItems = 0 ↔
          ∀ vb, ∀ batch ∈ s.hist.swept vb, KeepsAll cfg.batchSort cfg.sortDupThreshold batch)) := by
  refine ⟨fun s reached vb done batch swept => ?_, fun cached s reached drained => ?_⟩
  · have sorted : s.Sorted := reached.invariant (.initial maxBytes store seqnos) fun sorted taken => sorted.step taken
    exact sorted.marked_once_iff done swept
  · have pinning := Pinning.of_reach cached reached
    rw [← drained.pins_eq_nil_iff pinning.unrefused.sorted, pinning.exact.pins_eq_nil_iff]
    refine and_iff_left_of_imp fun unpinned => pinning.counted.pendingItems_eq_zero fun key => ?_
    cases held : s.cache.contents key with
    | none => exact Contents.pending_eq_zero held
    | some p => exact (Contents.pending_of_eq held).trans (unpinned key p held)

end State

/-- A server that sorts every batch. -/
def sortedConfig : Config := { plainConfig with batchSort := .always }

/-- Two writes of a key that arrive in two batches are both marked, and nothing stays pinned. -/
theorem pins_released_two_batches : ∃ s, Reach (restrict State.AdmitsPinned State.step) (plainStart sortedConfig 1000) s ∧
    s.hist.swept 0 = [[plainSet 0 0 1], [plainSet 1 0 2]] ∧ s.Drained ∧
      (∀ batch ∈ s.hist.swept 0, ∀ r ∈ batch, s.hist.marked.count r = 1) ∧
      (∀ key p, s.cache.contents key = some p → p.pending = 0) ∧ s.cache.pendingItems = 0 := by
  let tape : List Event := [.put (plainSet 0 0 1) none, .accept (plainSet 0 0 1), .charge 0, .push 0 0, .flushed 0,
    .sweep 0, .write 0 true, .mark 0 (plainSet 0 0 1) 1, .settle 0, .put (plainSet 1 0 2) none,
    .accept (plainSet 1 0 2), .charge 0, .push 0 0, .flushed 0, .sweep 0, .write 0 true, .mark 0 (plainSet 1 0 2) 2,
    .settle 0]
  obtain ⟨s, run, swept⟩ : ∃ s,
      exec (restrict State.AdmitsPinned State.step) (plainStart sortedConfig 1000) tape = some s ∧
        s.hist.swept 0 = [[plainSet 0 0 1], [plainSet 1 0 2]] := exists_exec (by decide +kernel)
  have final := State.eq_foldl_of_exec (exec_of_restrict run)
  have drained : s.Drained := by
    subst final
    constructor <;> intros <;>
      simp [tape, State.next, plainStart, State.initial, plainSet, Writer.unmarked, Writer.idle]
  have others : ∀ vb, vb ≠ 0 → s.hist.swept vb = [] := by
    subst final
    intro vb other
    simp [tape, State.next, plainStart, State.initial, History.empty, plainSet, other]
  have kept : ∀ vb, ∀ batch ∈ s.hist.swept vb, KeepsAll sortedConfig.batchSort sortedConfig.sortDupThreshold batch := by
    intro vb batch member
    by_cases here : vb = 0
    · rw [here, swept] at member
      revert batch
      decide
    · rw [others vb here] at member
      exact (List.not_mem_nil member).elim
  refine ⟨s, ⟨tape, run⟩, swept, drained, fun batch member => ?_,
    (State.pins_released_iff.2 (by decide) s ⟨tape, run⟩ drained).mpr kept⟩
  have marked := State.pins_released_iff.1 s ⟨tape, exec_of_restrict run⟩ 0 (drained.writer 0) batch member
  exact marked.mpr (kept 0 batch member)

/-- Two writes of a key in one batch: the sort drops the first, which is never marked persisted. With
every queue empty and every byte returned its pin is still there. -/
theorem duplicate_keeps_pin : ∃ s, Reach (restrict State.AdmitsPinned State.step) (plainStart sortedConfig 1000) s ∧
    s.Drained ∧ s.queuedBytes = 0 ∧ s.hist.swept 0 = [[plainSet 0 0 1, plainSet 1 0 2]] ∧
      s.hist.marked = [plainSet 1 0 2] ∧
      s.cache.contents (0, [107]) = some ⟨⟨1, (plainSet 1 0 2).content⟩, 1⟩ ∧ s.cache.pendingItems = 1 := by
  let tape : List Event := [.put (plainSet 0 0 1) none, .accept (plainSet 0 0 1), .put (plainSet 1 0 2) none,
    .accept (plainSet 1 0 2), .charge 0, .push 0 0, .flushed 0, .sweep 0, .write 0 true, .mark 0 (plainSet 1 0 2) 1,
    .settle 0]
  obtain ⟨s, run, facts⟩ : ∃ s,
      exec (restrict State.AdmitsPinned State.step) (plainStart sortedConfig 1000) tape = some s ∧
        s.queuedBytes = 0 ∧ s.hist.swept 0 = [[plainSet 0 0 1, plainSet 1 0 2]] ∧ s.hist.marked = [plainSet 1 0 2] ∧
        s.cache.contents (0, [107]) = some ⟨⟨1, (plainSet 1 0 2).content⟩, 1⟩ ∧ s.cache.pendingItems = 1 :=
    exists_exec (by decide +kernel)
  have final := State.eq_foldl_of_exec (exec_of_restrict run)
  have drained : s.Drained := by
    subst final
    constructor <;> intros <;>
      simp [tape, State.next, plainStart, State.initial, plainSet, Writer.unmarked, Writer.idle]
  exact ⟨s, ⟨tape, run⟩, drained, facts⟩

end FluxKV.Engine
