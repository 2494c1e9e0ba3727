import FluxKV.Engine.Agreement

/-! # Where a cached document comes from

A put installs a document with no seqno, a fill one that magma returned, and `MarkPersisted` writes the seqno
of the write it acknowledges into whatever entry the key has by then. A document is sourced when its seqno and
its bytes belong to one version: a version magma held from the start, or a write with the seqno assigned to it.
What magma and the reads hold is always sourced. What the cache holds is, as long as each acknowledgement finds
the bytes of its own write.
-/

namespace FluxKV.Engine

open Protocol Cache Counting Machine ListOrder

/-- What a cache hit reports of a document besides its seqno. -/
def Content.served (c : Content) : Bytes × UInt32 × UInt8 × Bool := (c.value, c.flags, c.datatype, c.deleted)

namespace State

variable {cfg : Config} {s : State cfg} {e : Event} {origin : UInt16 → Store} {key : DocKey} {doc : Version}

/-- What `Get` and `GetCopy` find for a key. -/
def hit (s : State cfg) (key : DocKey) : Option Version := (s.cache.contents key).map Pinned.doc

theorem hit_initial (maxBytes : ℕ) (store : UInt16 → Store) (seqnos : UInt16 → ℕ) (key : DocKey) :
    (State.initial cfg maxBytes store seqnos).hit key = none :=
  congrArg (Option.map Pinned.doc) (BucketCache.contents_start maxBytes key)

/-- The seqno a `MarkPersisted` passes: none if `WriteDocs` failed. -/
def ackSeqno (s : State cfg) (vb : UInt16) (seqno : ℕ) : ℕ := if (s.writer vb).ok then seqno else 0

/-- The ways a step can leave a document in the cache. -/
inductive Leaves (s : State cfg) : Event → DocKey → Version → Prop where
  | kept {e : Event} {key : DocKey} {doc : Version} (held : s.hit key = some doc)
      (unput : ∀ r ∈ e.puts, r.docKey ≠ key) : s.Leaves e key doc
  | put (r : Request) (cap : Option ℕ) : s.Leaves (.put r cap) r.docKey ⟨0, r.content⟩
  | marked {doc : Version} (vb : UInt16) (r : Request) (seqno : ℕ) (held : s.hit (vb, r.key) = some doc) :
      s.Leaves (.mark vb r seqno) (vb, r.key) (Shard.noteSeqno (s.ackSeqno vb seqno) doc)
  | filled (i : ℕ) (absent : s.hit (s.reads i).key = none) : s.Leaves (.fillInsert i) (s.reads i).key (s.reads i).doc

private theorem leaves_kept_of_evicts {t : State cfg} (evicts : s.cache.contents.Evicts t.cache.contents)
    (held : t.hit key = some doc) (unput : ∀ r ∈ e.puts, r.docKey ≠ key) : s.Leaves e key doc := by
  obtain ⟨p, resident, rfl⟩ := Option.map_eq_some_iff.mp held
  exact .kept (by rw [hit, evicts.held resident]; rfl) unput

private theorem leaves_put (r : Request) (cap : Option ℕ) (held : (s.next (.put r cap)).hit key = some doc) :
    s.Leaves (.put r cap) key doc := by
  obtain ⟨p, resident, rfl⟩ := Option.map_eq_some_iff.mp held
  have before := s.cache.held_of_put resident
  rcases eq_or_ne key r.docKey with rfl | other
  · rw [Contents.put, Contents.alter_self] at before
    obtain rfl := Option.some.inj before
    exact .put r cap
  · rw [Contents.put, Contents.alter_of_ne _ _ other] at before
    refine .kept (by rw [hit, before]; rfl) fun w own => ?_
    obtain rfl := List.mem_singleton.mp own
    exact other.symm

private theorem leaves_erase (r : Request) (held : (s.next (.erase r)).hit key = some doc) :
    s.Leaves (.erase r) key doc := by
  obtain ⟨p, resident, rfl⟩ := Option.map_eq_some_iff.mp held
  have before := (s.cache.erase_evicts r.docKey).held resident
  rcases eq_or_ne key r.docKey with rfl | other
  · rw [Contents.erase, Contents.alter_self] at before
    cases before
  · rw [Contents.erase, Contents.alter_of_ne _ _ other] at before
    exact .kept (by rw [hit, before]; rfl) (by rintro _ ⟨⟩)

private theorem leaves_mark (vb : UInt16) (r : Request) (seqno : ℕ)
    (held : (s.next (.mark vb r seqno)).hit key = some doc) : s.Leaves (.mark vb r seqno) key doc := by
  obtain ⟨p, resident, rfl⟩ := Option.map_eq_some_iff.mp held
  have before := (s.cache.markPersisted_evicts (vb, r.key) (s.ackSeqno vb seqno)).held resident
  rcases eq_or_ne key (vb, r.key) with rfl | other
  · rw [Contents.unpin, Contents.alter_self] at before
    obtain ⟨old, found, rfl⟩ := Option.map_eq_some_iff.mp before
    exact .marked vb r seqno (by rw [hit, found]; rfl)
  · rw [Contents.unpin, Contents.alter_of_ne _ _ other] at before
    exact .kept (by rw [hit, before]; rfl) (by rintro _ ⟨⟩)

private theorem leaves_fillInsert (i : ℕ) (held : (s.next (.fillInsert i)).hit key = some doc) :
    s.Leaves (.fillInsert i) key doc := by
  obtain ⟨p, resident, rfl⟩ := Option.map_eq_some_iff.mp held
  have before := (s.cache.fillInsert_evicts (s.reads i).key (s.reads i).doc).held resident
  rcases eq_or_ne key (s.reads i).key with rfl | other
  · rw [Contents.fill, Contents.alter_self] at before
    cases old : s.cache.contents (s.reads i).key with
    | some q =>
      rw [old, Option.some_or] at before
      exact .kept (by rw [hit, old, before]; rfl) (by rintro _ ⟨⟩)
    | none =>
      rw [old, Option.none_or] at before
      obtain rfl := Option.some.inj before
      exact .filled i (by rw [hit, old]; rfl)
  · rw [Contents.fill, Contents.alter_of_ne _ _ other] at before
    exact .kept (by rw [hit, before]; rfl) (by rintro _ ⟨⟩)

/-- What the cache holds after a step was there before or came with the step. -/
theorem leaves_of_hit (held : (s.next e).hit key = some doc) : s.Leaves e key doc := by
  cases e with
  | put r cap => exact leaves_put r cap held
  | erase r => exact leaves_erase r held
  | mark vb r seqno => exact leaves_mark vb r seqno held
  | trim vb key' => exact leaves_kept_of_evicts (s.cache.trim_evicts key') held (by rintro _ ⟨⟩)
  | fillDoor i => exact leaves_kept_of_evicts (s.cache.fillDoorkeeper_evicts _) held (by rintro _ ⟨⟩)
  | fillInsert i => exact leaves_fillInsert i held
  | touch key' => exact leaves_kept_of_evicts (s.cache.touch_evicts key') held (by rintro _ ⟨⟩)
  | setBudget i maxBytes => exact leaves_kept_of_evicts (s.cache.setBudget_evicts i maxBytes) held (by rintro _ ⟨⟩)
  | _ => exact .kept held (by rintro _ ⟨⟩)

/-- The bytes and the seqno are those of one version of the key: one magma held from the start, or a write with
the seqno it was assigned. -/
def Sourced (origin : UInt16 → Store) (s : State cfg) (key : DocKey) (doc : Version) : Prop :=
  (∃ v, origin key.1 key.2 = some v ∧ v.seqno = doc.seqno ∧ v.content.served = doc.content.served) ∨
    ∃ r, (r, doc.seqno) ∈ s.hist.assigned key.1 ∧ r.key = key.2 ∧ r.content.served = doc.content.served

theorem assigned_subset_next (e : Event) (vb : UInt16) : s.hist.assigned vb ⊆ (s.next e).hist.assigned vb := by
  cases e with
  | write vb' ok =>
    rcases eq_or_ne vb vb' with rfl | other
    · simp [next]
    · simp [next, Function.update_of_ne other]
  | _ => exact List.Subset.refl _

theorem Sourced.next (sourced : s.Sourced origin key doc) (e : Event) : (s.next e).Sourced origin key doc := by
  rcases sourced with initial | ⟨r, assigned, rest⟩
  · exact .inl initial
  · exact .inr ⟨r, assigned_subset_next e _ assigned, rest⟩

/-- What magma and the reads hold is sourced, and the writes assigned a seqno got one above the last that magma
had at the start. -/
structure Versioned (origin : UInt16 → Store) (last : UInt16 → ℕ) (s : State cfg) : Prop where
  ordered : s.Ordered
  seqnos : ∀ vb, last vb ≤ s.seqnos vb
  recent : ∀ vb, ∀ op ∈ s.hist.assigned vb, last vb < op.2
  toMark : ∀ vb, (s.writer vb).toMark ⊆ s.hist.assigned vb
  stored : ∀ vb key doc, s.store vb key = some doc → s.Sourced origin (vb, key) doc
  taken : ∀ i, (s.reads i).phase.holding = true → s.Sourced origin (s.reads i).key (s.reads i).doc

section Step

variable {last : UInt16 → ℕ}

private theorem stored_write (versioned : s.Versioned origin last) (vb : UInt16) (ok : Bool) (vb' : UInt16) (key : Bytes)
    (doc : Version) (found : (s.next (.write vb ok)).store vb' key = some doc) :
    (s.next (.write vb ok)).Sourced origin (vb', key) doc := by
  cases ok with
  | false => exact (versioned.stored vb' key doc found).next (.write vb false)
  | true =>
    rcases eq_or_ne vb' vb with rfl | other
    · let ops := assignSeqnos (s.seqnos vb') (planBatch cfg.batchSort cfg.sortDupThreshold (s.writer vb').batch).1
      have written : (s.next (.write vb' true)).store vb' = (s.store vb').writeDocs ops := Function.update_self ..
      rw [written, Store.writeDocs_apply] at found
      cases latest : (ops.filter fun op => op.1.key = key).getLast? with
      | none =>
        rw [latest] at found
        exact (versioned.stored vb' key doc found).next (.write vb' true)
      | some op =>
        rw [latest] at found
        obtain rfl := Option.some.inj found
        obtain ⟨member, same⟩ := List.mem_filter.mp (List.mem_of_getLast? latest)
        refine .inr ⟨op.1, ?_, of_decide_eq_true same, rfl⟩
        have assigned : (s.next (.write vb' true)).hist.assigned vb' = s.hist.assigned vb' ++ ops :=
          Function.update_self ..
        rw [assigned]
        exact List.mem_append_right _ member
    · have kept : (s.next (.write vb true)).store vb' = s.store vb' := Function.update_of_ne other ..
      rw [kept] at found
      exact (versioned.stored vb' key doc found).next (.write vb true)

private theorem stored_next (versioned : s.Versioned origin last) (vb : UInt16) (key : Bytes) (doc : Version)
    (found : (s.next e).store vb key = some doc) : (s.next e).Sourced origin (vb, key) doc := by
  cases e with
  | write vb' ok => exact stored_write versioned vb' ok vb key doc found
  | _ => exact (versioned.stored vb key doc found).next _

private theorem taken_next (versioned : s.Versioned origin last) (able : s.enabled e) (i : ℕ)
    (holding : ((s.next e).reads i).phase.holding = true) :
    (s.next e).Sourced origin ((s.next e).reads i).key ((s.next e).reads i).doc := by
  rcases holding_next able i holding with ⟨before, key, doc, _⟩ | ⟨found, _⟩
  · rw [key, doc]
    exact (versioned.taken i before).next e
  · exact (versioned.stored _ _ _ found).next e

private theorem seqnos_next (versioned : s.Versioned origin last) : ∀ vb, last vb ≤ (s.next e).seqnos vb := by
  cases e with
  | write vb ok =>
    refine forall_update (P := fun vb n => last vb ≤ n) ?_ versioned.seqnos
    exact (versioned.seqnos vb).trans (Nat.le_add_right ..)
  | _ => exact versioned.seqnos

private theorem recent_next (versioned : s.Versioned origin last) :
    ∀ vb, ∀ op ∈ (s.next e).hist.assigned vb, last vb < op.2 := by
  cases e with
  | write vb ok =>
    refine forall_update (P := fun vb (ops : List (Request × ℕ)) => ∀ op ∈ ops, last vb < op.2)
      (fun op member => ?_) versioned.recent
    rcases List.mem_append.mp member with old | new
    · exact versioned.recent vb op old
    · exact (versioned.seqnos vb).trans_lt (mem_assignSeqnos_bounds new).1
  | _ => exact versioned.recent

private theorem toMark_next (versioned : s.Versioned origin last) :
    ∀ vb, ((s.next e).writer vb).toMark ⊆ (s.next e).hist.assigned vb := by
  have toMark := versioned.toMark
  let Known (vb : UInt16) (w : Writer) : Prop := w.toMark ⊆ s.hist.assigned vb
  cases e with
  | sweep | settle | addBytes | awaitDurable => exact forall_update (P := Known) (List.nil_subset _) toMark
  | write vb ok =>
    refine forall_update (P := fun vb' (w : Writer) => w.toMark ⊆ (s.next (.write vb ok)).hist.assigned vb') ?_
      fun vb' => List.Subset.trans (toMark vb') (assigned_subset_next _ _)
    intro op member
    simp only [next, Function.update_self]
    exact List.mem_append_right _ member
  | mark vb r seqno => exact forall_update (P := Known) (List.Subset.trans (List.tail_subset _) (toMark vb)) toMark
  | trim vb | stamp vb | park vb => exact forall_update (P := Known) (toMark vb) toMark
  | _ => exact toMark

theorem Versioned.step {t : State cfg} (versioned : s.Versioned origin last) (stepped : s.step e = some t) :
    t.Versioned origin last := by
  have ordered := versioned.ordered.step stepped
  obtain ⟨able, rfl⟩ := step_eq_some.mp stepped
  exact ⟨ordered, seqnos_next versioned, recent_next versioned, toMark_next versioned, stored_next versioned,
    taken_next versioned able⟩

theorem Versioned.initial (maxBytes : ℕ) (store : UInt16 → Store) (seqnos : UInt16 → ℕ) :
    (State.initial cfg maxBytes store seqnos).Versioned store seqnos where
  ordered := .initial maxBytes store seqnos
  seqnos _ := le_rfl
  recent _ _ member := (List.not_mem_nil member).elim
  toMark _ := List.nil_subset _
  stored _ _ doc found := .inl ⟨doc, found, rfl, rfl⟩
  taken _ holding := Bool.noConfusion holding

/-- The write a running `MarkPersisted` acknowledges has the seqno it passes. -/
theorem Versioned.assigned_of_mark (versioned : s.Versioned origin last) {vb : UInt16} {r : Request} {seqno : ℕ}
    (able : s.enabled (.mark vb r seqno)) : (r, seqno) ∈ s.hist.assigned vb := by
  obtain ⟨_, _, head⟩ := of_decide_eq_true able
  exact versioned.toMark vb (List.mem_of_head? head)

end Step

/-- Every document the cache reports with a seqno is the version of that seqno. -/
def HitsNamed (origin : UInt16 → Store) (s : State cfg) : Prop :=
  ∀ key doc, s.hit key = some doc → doc.seqno ≠ 0 → s.Sourced origin key doc

/-- The write that an event acknowledges with its seqno, and its vbucket. -/
def acknowledged (s : State cfg) : Event → List (UInt16 × Request)
  | .mark vb r _ => if (s.writer vb).ok then [(vb, r)] else []
  | _ => []

/-- An acknowledgement finds its key absent, or with the bytes of the write it acknowledges. -/
def FindsOwn (s : State cfg) (e : Event) : Prop :=
  ∀ ack ∈ s.acknowledged e, ∀ doc ∈ s.hit (ack.1, ack.2.key), doc.content.served = ack.2.content.served

instance (s : State cfg) (e : Event) : Decidable (s.FindsOwn e) := inferInstanceAs (Decidable (∀ ack ∈ _, _))

theorem acknowledged_mark {vb : UInt16} (ok : (s.writer vb).ok = true) (r : Request) (seqno : ℕ) :
    s.acknowledged (.mark vb r seqno) = [(vb, r)] := if_pos ok

variable {last : UInt16 → ℕ}

theorem HitsNamed.next (versioned : s.Versioned origin last) (named : s.HitsNamed origin) (able : s.enabled e)
    (own : s.FindsOwn e) : (s.next e).HitsNamed origin := by
  intro key doc held numbered
  cases leaves_of_hit held with
  | kept held _ => exact (named key doc held numbered).next e
  | put r cap => exact (numbered rfl).elim
  | @marked old vb r seqno found =>
    rcases ok : (s.writer vb).ok with _ | _
    · simp only [ackSeqno, ok, Bool.false_eq_true, if_false, Shard.noteSeqno, if_true] at numbered ⊢
      exact (named _ old found numbered).next _
    · have assigned := versioned.assigned_of_mark able
      have positive := versioned.recent vb _ assigned
      have noted : Shard.noteSeqno (s.ackSeqno vb seqno) old = { old with seqno } := by
        simp only [ackSeqno, ok, if_true, Shard.noteSeqno]
        exact if_neg (Nat.ne_zero_of_lt positive)
      rw [noted]
      refine .inr ⟨r, assigned_subset_next _ _ assigned, rfl, (own (vb, r) ?_ old found).symm⟩
      rw [acknowledged_mark ok]
      exact List.mem_singleton_self _
  | filled i absent => exact (versioned.taken i (mayInsert.holding (of_decide_eq_true able))).next _

/-- A seqno is assigned once. -/
theorem Versioned.assigned_unique (versioned : s.Versioned origin last) {vb : UInt16} {a b : Request} {seqno : ℕ}
    (first : (a, seqno) ∈ s.hist.assigned vb) (second : (b, seqno) ∈ s.hist.assigned vb) : a = b := by
  by_contra differ
  have rising := (versioned.ordered.sequenced vb).rising
  rcases pair_sublist_or first second fun equal => differ (congrArg Prod.fst equal) with forth | back
  · exact lt_irrefl seqno (rank_lt_of_pair rising forth)
  · exact lt_irrefl seqno (rank_lt_of_pair rising back)

/-- An acknowledgement that finds other bytes than those of its write pairs them with its seqno. -/
theorem not_hitsNamed_next (versioned : s.Versioned origin last)
    (recovered : ∀ vb key doc, origin vb key = some doc → doc.seqno ≤ last vb) (able : s.enabled e)
    (foreign : ¬ s.FindsOwn e) : ¬ (s.next e).HitsNamed origin := by
  cases e with
  | mark vb r seqno =>
    simp only [FindsOwn, not_forall] at foreign
    obtain ⟨⟨vb', r'⟩, acked, doc, held, differ⟩ := foreign
    rcases ok : (s.writer vb).ok with _ | _
    · simp [acknowledged, ok] at acked
    rw [acknowledged_mark ok, List.mem_singleton, Prod.mk.injEq] at acked
    rw [acked.1, acked.2] at held
    rw [acked.2] at differ
    obtain ⟨p, resident, rfl⟩ := Option.map_eq_some_iff.mp held
    have assigned := versioned.assigned_of_mark able
    have positive := versioned.recent vb _ assigned
    have after : (s.next (.mark vb r seqno)).hit (vb, r.key) = some { p.doc with seqno } := by
      have noted := s.cache.contents_markPersisted_self (vb, r.key) (s.ackSeqno vb seqno)
      rw [Contents.unpin, Contents.alter_self, resident, Option.map_some] at noted
      have noted : (s.next (.mark vb r seqno)).cache.contents (vb, r.key) = _ := noted
      rw [hit, noted, Option.map_some]
      simp only [ackSeqno, ok, if_true, Shard.noteSeqno, if_neg (Nat.ne_zero_of_lt positive)]
    intro named
    rcases named _ _ after (Nat.ne_zero_of_lt positive) with ⟨v, initial, same, _⟩ | ⟨w, again, _, bytes⟩
    · have bounded : v.seqno ≤ last _ := recovered _ _ _ initial
      rw [same] at bounded
      exact absurd positive (not_lt.mpr bounded)
    · rw [versioned.assigned_unique again assigned] at bytes
      exact differ bytes.symm
  | _ => exact (foreign fun _ acked => (List.not_mem_nil acked).elim).elim

/-- Versions are kept apart, and every hit names its own. -/
structure Attributed (origin : UInt16 → Store) (last : UInt16 → ℕ) (s : State cfg) : Prop where
  versioned : s.Versioned origin last
  named : s.HitsNamed origin

theorem Attributed.step {t : State cfg} (attributed : s.Attributed origin last) (own : s.FindsOwn e)
    (taken : s.step e = some t) : t.Attributed origin last := by
  have versioned := attributed.versioned.step taken
  obtain ⟨able, rfl⟩ := step_eq_some.mp taken
  exact ⟨versioned, attributed.named.next attributed.versioned able own⟩

theorem Attributed.initial (maxBytes : ℕ) (store : UInt16 → Store) (seqnos : UInt16 → ℕ) :
    (State.initial cfg maxBytes store seqnos).Attributed store seqnos where
  versioned := .initial maxBytes store seqnos
  named key _ held := by cases (hit_initial maxBytes store seqnos key).symm.trans held

/-- A run reports every seqno with the bytes of the version it names, in every state, exactly when each
acknowledgement finds its key absent or with the bytes of the write it acknowledges. Magma's documents at the
start have seqnos up to its `GetMaxSeqno`. -/
theorem cached_cas_names_version {maxBytes : ℕ} {store : UInt16 → Store} {seqnos : UInt16 → ℕ} {tape : List Event}
    {t : State cfg} (recovered : ∀ vb key doc, store vb key = some doc → doc.seqno ≤ seqnos vb)
    (run : exec State.step (State.initial cfg maxBytes store seqnos) tape = some t) :
    Along State.step (HitsNamed store) (State.initial cfg maxBytes store seqnos) tape ↔
      exec (restrict FindsOwn State.step) (State.initial cfg maxBytes store seqnos) tape = some t := by
  refine along_iff_restrict (Attributed.initial maxBytes store seqnos)
    (fun attributed own taken => attributed.step own taken) Attributed.named ?_ run
  intro s e t attributed foreign taken
  obtain ⟨able, rfl⟩ := step_eq_some.mp taken
  exact not_hitsNamed_next attributed.versioned recovered able foreign

end State

/-- Two writes of `k` by one thread, the second put after the first is acknowledged. Both acknowledgements find
their own bytes. -/
theorem cached_cas_names_version_in_turn : ∃ t, ∃ tape : List Event,
    exec State.step (plainStart plainConfig 1000) tape = some t ∧ t.hit (0, [107]) = some ⟨2, (plainSet 1 0 2).content⟩ ∧
      Along State.step (State.HitsNamed fun _ _ => none) (plainStart plainConfig 1000) tape := by
  let tape : List Event := wholeWrite (plainSet 0 0 1) 1 ++ .settle 0 :: wholeWrite (plainSet 1 0 2) 2
  obtain ⟨t, run, hit⟩ : ∃ t, exec (restrict State.FindsOwn State.step) (plainStart plainConfig 1000) tape = some t ∧
      t.hit (0, [107]) = some ⟨2, (plainSet 1 0 2).content⟩ := exists_exec (by decide +kernel)
  have plain := exec_of_restrict run
  exact ⟨t, tape, plain, hit, (State.cached_cas_names_version (fun _ _ _ found => by cases found) plain).mpr run⟩

/-- One thread, nothing refused, nothing failed. A second SET of `k` is put while the first is in the writer's
hands; the acknowledgement of the first leaves the second's bytes in the cache with the seqno of the first. -/
theorem cas_of_replaced_version : ∃ s, Reach (restrict State.Lossless State.step) (plainStart plainConfig 1000) s ∧
    s.hist.puts = [plainSet 0 0 1, plainSet 1 0 2] ∧ s.hist.assigned 0 = [(plainSet 0 0 1, 1)] ∧
      s.store 0 [107] = some ⟨1, (plainSet 0 0 1).content⟩ ∧
      s.hit (0, [107]) = some ⟨1, (plainSet 1 0 2).content⟩ ∧ ¬ s.HitsNamed fun _ _ => none := by
  obtain ⟨s, reached, puts, assigned, stored, hit⟩ : ∃ s,
      Reach (restrict State.Lossless State.step) (plainStart plainConfig 1000) s ∧
        s.hist.puts = [plainSet 0 0 1, plainSet 1 0 2] ∧ s.hist.assigned 0 = [(plainSet 0 0 1, 1)] ∧
        s.store 0 [107] = some ⟨1, (plainSet 0 0 1).content⟩ ∧ s.hit (0, [107]) = some ⟨1, (plainSet 1 0 2).content⟩ :=
    exists_reach [.put (plainSet 0 0 1) none, .accept (plainSet 0 0 1), .charge 0, .push 0 0, .flushed 0, .sweep 0,
      .put (plainSet 1 0 2) none, .write 0 true, .mark 0 (plainSet 0 0 1) 1] (by decide +kernel)
  refine ⟨s, reached, puts, assigned, stored, hit, fun named => ?_⟩
  rcases named _ _ hit Nat.one_ne_zero with ⟨v, initial, _⟩ | ⟨r, given, _, bytes⟩
  · cases initial
  · rw [assigned] at given
    obtain ⟨rfl, _⟩ := Prod.mk.inj (List.mem_singleton.mp given)
    revert bytes
    decide

end FluxKV.Engine
