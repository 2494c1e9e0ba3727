import FluxKV.Engine.Flow

/-! # Where vbucket ids index

The staging table, the two queue tables and the seqno table have `kMaxVBuckets` slots each and are
indexed with the vbucket id of a request, on the IO threads, the writers and the readers. No path checks
the id, so the accesses stay inside the tables exactly if the clients' ids do.
-/

namespace FluxKV.Engine

open Protocol Cache Counting Machine

/-- `Shard::kMaxVBuckets`. -/
def kMaxVBuckets : UInt16 := 1024

/-- The read an event queues. -/
def Event.enqueues : Event → List DocKey
  | .enqueueRead _ key => [key]
  | _ => []

namespace State

variable {cfg : Config} {s : State cfg} {e : Event}

/-- Some write for the vbucket was staged. -/
def Staged (s : State cfg) (vb : UInt16) : Prop := ∃ r ∈ s.hist.accepted, r.vbucket = vb

/-- Some read of the vbucket was queued. -/
def Queried (s : State cfg) (vb : UInt16) : Prop := ∃ key ∈ s.hist.enqueued, key.1 = vb

/-- Every id in use came in with a request, and every request's id was used. -/
structure Indexed (s : State cfg) : Prop where
  touched : ∀ t, ∀ vb ∈ s.touched t ++ s.left t, s.Staged vb
  reads : ∀ i, (s.reads i).phase ≠ .idle → s.Queried (s.reads i).key.1
  accesses : ∀ access ∈ s.hist.accesses, s.Staged access.2 ∨ s.Queried access.2
  staged : ∀ r ∈ s.hist.accepted, (.staging, r.vbucket) ∈ s.hist.accesses
  queried : ∀ key ∈ s.hist.enqueued, (.vbReadQueues, key.1) ∈ s.hist.accesses

/-- The ids an event indexes with, and the tables. -/
def indexes (s : State cfg) : Event → List (Table × UInt16)
  | .accept r => [(.staging, r.vbucket)]
  | .push _ vb => [(.staging, vb), (.vbWriteQueues, vb)]
  | .sweep vb => [(.vbWriteQueues, vb)]
  | .write vb _ => (planBatch cfg.batchSort cfg.sortDupThreshold (s.writer vb).batch).1.map fun _ => (.seqnos, vb)
  | .enqueueRead _ key => [(.vbReadQueues, key.1)]
  | .readTake i _ | .readMiss i => [(.vbReadQueues, (s.reads i).key.1)]
  | _ => []

theorem hist_accesses_next (e : Event) : (s.next e).hist.accesses = s.hist.accesses ++ s.indexes e := by
  cases e <;> first | rfl | exact (List.append_nil _).symm

theorem hist_enqueued_next (e : Event) : (s.next e).hist.enqueued = s.hist.enqueued ++ e.enqueues := by
  cases e <;> first | rfl | exact (List.append_nil _).symm

theorem Staged.next {vb : UInt16} (staged : s.Staged vb) (e : Event) : (s.next e).Staged vb := by
  obtain ⟨r, accepted, here⟩ := staged
  exact ⟨r, by rw [hist_accepted_next]; exact List.mem_append_left _ accepted, here⟩

theorem Queried.next {vb : UInt16} (queried : s.Queried vb) (e : Event) : (s.next e).Queried vb := by
  obtain ⟨key, enqueued, here⟩ := queried
  exact ⟨key, by rw [hist_enqueued_next]; exact List.mem_append_left _ enqueued, here⟩

theorem Accounts.staged_of_queued (accounts : s.Accounts) {r : Request} (queued : r ∈ s.list r.vbucket) :
    s.Staged r.vbucket := by
  have := List.count_pos_iff.mpr queued
  have := accounts.flushed r
  have := accounts.staged r
  exact ⟨r, List.count_pos_iff.mp (by omega), rfl⟩

theorem Accounts.staged_of_swept (accounts : s.Accounts) {r : Request}
    (swept : r ∈ (s.hist.swept r.vbucket).flatten) : s.Staged r.vbucket := by
  have := List.count_pos_iff.mpr swept
  have := accounts.flushed r
  have := accounts.staged r
  exact ⟨r, List.count_pos_iff.mp (by omega), rfl⟩

private theorem touched_next (indexed : s.Indexed) :
    ∀ t, ∀ vb ∈ (s.next e).touched t ++ (s.next e).left t, (s.next e).Staged vb := by
  intro t vb member
  cases e with
  | accept w =>
    have here : (s.next (.accept w)).Staged w.vbucket := ⟨w, List.mem_append_right _ (List.mem_singleton_self w), rfl⟩
    have cases : vb ∈ s.touched t ++ s.left t ∨ vb = w.vbucket := by
      simp only [next] at member
      split at member
      · by_cases same : t = w.thread
        · subst same
          simp only [Function.update_self, List.mem_append, List.mem_singleton] at member ⊢
          tauto
        · rw [Function.update_of_ne same] at member
          exact .inl member
      · exact .inl member
    rcases cases with old | rfl
    · exact (indexed.touched t vb old).next _
    · exact here
  | charge t' =>
    have old : vb ∈ s.touched t ++ s.left t := by
      simp only [next, Function.update_apply] at member
      split at member
      · next same =>
        subst same
        exact List.mem_append_left _ (by simpa using member)
      · exact member
    exact indexed.touched t vb old
  | push t' vb' =>
    have old : vb ∈ s.touched t ++ s.left t := by
      simp only [next, Function.update_apply] at member
      split at member
      · next same =>
        subst same
        exact (List.mem_append.mp member).elim (List.mem_append_left _) fun left =>
          List.mem_append_right _ (List.mem_of_mem_tail left)
      · exact member
    exact indexed.touched t vb old
  | flushed t' =>
    have old : vb ∈ s.touched t ++ s.left t := by
      simp only [next, Function.update_apply] at member
      split at member
      · exact List.mem_append_right _ (by simpa using member)
      · exact member
    exact indexed.touched t vb old
  | _ => exact indexed.touched t vb member

/-- A read past its start keeps the key it was queued with. -/
private theorem reads_next (indexed : s.Indexed) (able : s.enabled e) :
    ∀ i, ((s.next e).reads i).phase ≠ .idle → (s.next e).Queried ((s.next e).reads i).key.1 := by
  have keep {j : ℕ} {read : Read} (started : (s.reads j).phase ≠ .idle) (same : read.key = (s.reads j).key) :
      ∀ i, (Function.update s.reads j read i).phase ≠ .idle → s.Queried (Function.update s.reads j read i).key.1 :=
    forall_update (P := fun _ (read : Read) => read.phase ≠ .idle → s.Queried read.key.1)
      (fun _ => same ▸ indexed.reads j started) indexed.reads
  cases e with
  | write vb ok =>
    intro i started
    have same : ((s.next (.write vb ok)).reads i).phase = (s.reads i).phase ∧
        ((s.next (.write vb ok)).reads i).key = (s.reads i).key := by
      simp only [next]
      split <;> exact ⟨rfl, rfl⟩
    rw [same.2]
    exact indexed.reads i (same.1 ▸ started)
  | enqueueRead j key =>
    intro i started
    by_cases same : i = j
    · subst same
      exact ⟨key, List.mem_append_right _ (List.mem_singleton_self key), by simp [next]⟩
    · simp only [next, Function.update_of_ne same] at started ⊢
      exact (indexed.reads i started).next (.enqueueRead j key)
  | readTake | readMiss | fillDoor =>
    obtain ⟨phase, _⟩ := of_decide_eq_true able
    exact keep (by rw [phase]; decide) rfl
  | fillCheck j =>
    have phase : (s.reads j).phase = .taken := of_decide_eq_true able
    exact keep (by rw [phase]; decide) rfl
  | fillInsert j =>
    have started : (s.reads j).phase ≠ .idle := by
      rcases of_decide_eq_true able with phase | ⟨phase, _⟩ <;> (rw [phase]; decide)
    exact keep started rfl
  | _ => exact indexed.reads

/-- An event indexes with an id that came in with a request. -/
private theorem indexes_named (flow : s.Flow) (indexed : s.Indexed) (able : s.enabled e) :
    ∀ access ∈ s.indexes e, (s.next e).Staged access.2 ∨ (s.next e).Queried access.2 := by
  intro access member
  cases e with
  | accept w =>
    rw [List.mem_singleton.mp member]
    exact .inl ⟨w, List.mem_append_right _ (List.mem_singleton_self w), rfl⟩
  | push t vb =>
    obtain ⟨_, head⟩ := of_decide_eq_true able
    have staged := indexed.touched t vb (List.mem_append_right _ (List.mem_of_mem_head? head))
    have same : access.2 = vb := by
      simp only [indexes, List.mem_cons, List.not_mem_nil, or_false] at member
      rcases member with rfl | rfl <;> rfl
    rw [same]
    exact .inl (staged.next _)
  | sweep vb =>
    obtain ⟨_, nonempty⟩ := of_decide_eq_true able
    obtain ⟨r, queued⟩ := List.exists_mem_of_ne_nil _ nonempty
    obtain rfl := flow.homes.list vb r queued
    rw [List.mem_singleton.mp member]
    exact .inl ((flow.accounts.staged_of_queued queued).next _)
  | write vb ok =>
    have phase : (s.writer vb).phase = .swept := of_decide_eq_true able
    obtain ⟨r, kept, rfl⟩ := List.mem_map.mp member
    have inBatch : r ∈ (s.writer vb).batch :=
      (planBatch_perm cfg.batchSort cfg.sortDupThreshold _).subset (List.mem_append_left _ kept)
    obtain rfl := (flow.homes.writer vb).1 r inBatch
    have swept : r ∈ (s.hist.swept r.vbucket).flatten := by
      rw [flow.accounts.swept, List.flatten_append]
      exact List.mem_append_right _ (by simpa [Writer.unwritten, phase] using inBatch)
    exact .inl ((flow.accounts.staged_of_swept swept).next _)
  | enqueueRead i key =>
    rw [List.mem_singleton.mp member]
    exact .inr ⟨key, List.mem_append_right _ (List.mem_singleton_self key), rfl⟩
  | readTake i | readMiss i =>
    obtain ⟨phase, _⟩ := of_decide_eq_true able
    rw [List.mem_singleton.mp member]
    exact .inr ((indexed.reads i (by rw [phase]; decide)).next _)
  | _ => exact (List.not_mem_nil member).elim

theorem Indexed.next (flow : s.Flow) (indexed : s.Indexed) (able : s.enabled e) : (s.next e).Indexed where
  touched := touched_next indexed
  reads := reads_next indexed able
  accesses access member := by
    rw [hist_accesses_next] at member
    rcases List.mem_append.mp member with old | new
    · exact (indexed.accesses access old).imp (·.next e) (·.next e)
    · exact indexes_named flow indexed able access new
  staged r member := by
    rw [hist_accesses_next]
    rw [hist_accepted_next] at member
    rcases List.mem_append.mp member with old | new
    · exact List.mem_append_left _ (indexed.staged r old)
    · refine List.mem_append_right _ ?_
      cases e with
      | accept w =>
        rw [List.mem_singleton.mp new]
        exact List.mem_singleton_self _
      | _ => exact (List.not_mem_nil new).elim
  queried key member := by
    rw [hist_accesses_next]
    rw [hist_enqueued_next] at member
    rcases List.mem_append.mp member with old | new
    · exact List.mem_append_left _ (indexed.queried key old)
    · refine List.mem_append_right _ ?_
      cases e with
      | enqueueRead i key' =>
        rw [List.mem_singleton.mp new]
        exact List.mem_singleton_self _
      | _ => exact (List.not_mem_nil new).elim

theorem Indexed.initial (maxBytes : ℕ) (store : UInt16 → Store) (seqnos : UInt16 → ℕ) :
    (State.initial cfg maxBytes store seqnos).Indexed where
  touched _ _ member := (List.not_mem_nil member).elim
  reads _ started := (started rfl).elim
  accesses _ member := (List.not_mem_nil member).elim
  staged _ member := (List.not_mem_nil member).elim
  queried _ member := (List.not_mem_nil member).elim

/-- Every access to a table of vbuckets is inside it exactly if every staged write and every queued read
carries a vbucket id below `kMaxVBuckets`. -/
theorem accesses_inside_iff {maxBytes : ℕ} {store : UInt16 → Store} {seqnos : UInt16 → ℕ}
    (reached : Reach State.step (State.initial cfg maxBytes store seqnos) s) :
    (∀ access ∈ s.hist.accesses, access.2 < kMaxVBuckets) ↔
      (∀ r ∈ s.hist.accepted, r.vbucket < kMaxVBuckets) ∧ ∀ key ∈ s.hist.enqueued, key.1 < kMaxVBuckets := by
  have invariant : s.Flow ∧ s.Indexed := by
    refine reached.invariant (P := fun s => s.Flow ∧ s.Indexed)
      ⟨.initial maxBytes store seqnos, .initial maxBytes store seqnos⟩ fun {s e t} before taken => ?_
    refine ⟨before.1.step taken, ?_⟩
    obtain ⟨able, rfl⟩ := step_eq_some.mp taken
    exact before.2.next before.1 able
  obtain ⟨_, indexed⟩ := invariant
  constructor
  · intro inside
    exact ⟨fun r accepted => inside _ (indexed.staged r accepted),
      fun key enqueued => inside _ (indexed.queried key enqueued)⟩
  · rintro ⟨writes, reads⟩ access member
    rcases indexed.accesses access member with ⟨r, accepted, here⟩ | ⟨key, enqueued, here⟩
    · exact here ▸ writes r accepted
    · exact here ▸ reads key enqueued

end State

/-- A DELETE of the key `k` in a vbucket of the client's choice, from its handler to magma, and then a GET of
the same vbucket that misses the cache. -/
def visit (vb : UInt16) : List Event :=
  [.put ⟨0, 0, vb, [107], .delete, none⟩ none, .accept ⟨0, 0, vb, [107], .delete, none⟩, .charge 0, .push 0 vb,
    .flushed 0, .sweep vb, .write vb true, .enqueueRead 0 (vb, [108]), .readMiss 0]

/-- The last vbucket of the tables. -/
theorem accesses_inside_last_vbucket : ∃ s, Reach State.step (plainStart plainConfig 1000) s ∧
    s.hist.accesses.map Prod.fst =
      [.staging, .staging, .vbWriteQueues, .vbWriteQueues, .seqnos, .vbReadQueues, .vbReadQueues] ∧
      ∀ access ∈ s.hist.accesses, access.2 < kMaxVBuckets := by
  obtain ⟨s, reached, tables, accepted, enqueued⟩ : ∃ s, Reach State.step (plainStart plainConfig 1000) s ∧
      s.hist.accesses.map Prod.fst =
        [.staging, .staging, .vbWriteQueues, .vbWriteQueues, .seqnos, .vbReadQueues, .vbReadQueues] ∧
      s.hist.accepted.map Request.vbucket = [1023] ∧ s.hist.enqueued = [(1023, [108])] :=
    exists_reach (visit 1023) (by decide +kernel)
  refine ⟨s, reached, tables, (State.accesses_inside_iff reached).mpr ⟨fun r member => ?_, ?_⟩⟩
  · have listed := List.mem_map_of_mem (f := Request.vbucket) member
    rw [accepted] at listed
    rw [List.mem_singleton.mp listed]
    decide
  · rw [enqueued]
    decide

/-- The vbucket field of a request header is 16 bits wide and nobody looks at it: with 1024 in it, all four
tables are indexed past their end. -/
theorem accesses_outside : ∃ s, Reach State.step (plainStart plainConfig 1000) s ∧
    s.hist.accesses = [(.staging, 1024), (.staging, 1024), (.vbWriteQueues, 1024), (.vbWriteQueues, 1024),
      (.seqnos, 1024), (.vbReadQueues, 1024), (.vbReadQueues, 1024)] ∧ ¬ (1024 : UInt16) < kMaxVBuckets :=
  exists_reach (visit 1024) (by decide +kernel)

end FluxKV.Engine
