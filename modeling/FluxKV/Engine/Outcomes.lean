import FluxKV.Engine.Agreement
import FluxKV.Engine.Bytes

/-! # What clients can rely on

Two results about whole runs of the write path. When `DrainWrites` has seen the count of queued bytes reach zero, with
nothing left in a staging table, every write that was accepted is in magma. And a GET is answered with what the last
put of its key had written at some moment between its arrival and its answer, whether it hits the cache or is read from
magma while other writes of the key come in.
-/

namespace FluxKV.Engine

open Protocol Cache Counting Machine

/-- The slot of the read that an event queues. -/
def Event.arrives : Event → List ℕ
  | .enqueueRead i _ => [i]
  | _ => []

namespace State

variable {cfg : Config} {s t : State cfg} {e : Event} {origin : UInt16 → Store} {key : DocKey}

/-! ## A drained bucket -/

/-- No `WriteDocs` fails. -/
def Succeeds (_ : State cfg) (e : Event) : Prop := e.fails = false

instance (s : State cfg) (e : Event) : Decidable (s.Succeeds e) := inferInstanceAs (Decidable (_ = _))

/-- What holds while no `WriteDocs` fails. -/
structure Reliable (origin : UInt16 → Store) (s : State cfg) : Prop where
  ordered : s.Ordered
  conserved : s.Conserved
  applied : s.Applied origin
  failed : s.hist.failed = []

theorem Reliable.step (reliable : s.Reliable origin) (succeeds : s.Succeeds e) (taken : s.step e = some t) :
    t.Reliable origin := by
  have ordered := reliable.ordered.step taken
  have conserved := reliable.conserved.step taken
  obtain ⟨-, rfl⟩ := step_eq_some.mp taken
  refine ⟨ordered, conserved, reliable.applied.next succeeds, ?_⟩
  cases e with
  | write vb ok =>
    obtain rfl : ok = true := by simpa [Succeeds, Event.fails] using succeeds
    exact reliable.failed
  | _ => exact reliable.failed

theorem reliable_of_reach {maxBytes : ℕ} {store : UInt16 → Store} {seqnos : UInt16 → ℕ}
    (reached : Reach (restrict Succeeds State.step) (State.initial cfg maxBytes store seqnos) s) : s.Reliable store := by
  refine reached.invariant (P := Reliable store) ?_ fun before taken => ?_
  · exact ⟨.initial maxBytes store seqnos, .initial maxBytes store seqnos, .initial maxBytes store seqnos, rfl⟩
  · obtain ⟨succeeds, taken⟩ := restrict_eq_some.mp taken
    exact before.step succeeds taken

/-- A drained bucket has returned the bytes of every write that was pushed onto a queue. -/
theorem Conserved.released_of_drained (conserved : s.Conserved) (drained : s.queuedBytes = 0) {r : Request}
    (flushed : r ∈ s.hist.flushed) : r ∈ s.hist.released := by
  have some := List.count_pos_iff.mpr flushed
  have charged := conserved.stocked.flushed_le r
  exact conserved.queuedBytes_eq_zero_iff.mp drained r (List.count_pos_iff.mp (by omega))

/-- Once every accepted write was pushed, the staging tables are empty. -/
theorem Ordered.unstaged (ordered : s.Ordered) (flushed : ∀ r ∈ s.hist.accepted, r ∈ s.hist.flushed) (t : ℕ)
    (vb : UInt16) : s.vbs t vb = [] := by
  refine List.eq_nil_iff_forall_not_mem.mpr fun r staged => ?_
  obtain ⟨rfl, rfl⟩ := ordered.flow.homes.vbs t vb r staged
  have places := ordered.flow.accounts.staged r
  have here := List.count_pos_iff.mpr staged
  have accepted : r ∈ s.hist.accepted := List.count_pos_iff.mp (by omega)
  have once := List.count_eq_one_of_mem ordered.flow.accounts.accepted_nodup accepted
  have pushed := List.count_pos_iff.mpr (flushed r accepted)
  omega

/-- In a drained bucket no write is in the queue of a vbucket, or in a writer's hands before `WriteDocs`. -/
theorem Reliable.line_of_drained (reliable : s.Reliable origin) (drained : s.queuedBytes = 0) (vb : UInt16) :
    s.line vb = (s.hist.handed vb).flatten := by
  have accounts := reliable.ordered.flow.accounts
  have rest : (s.writer vb).unwritten.flatten ++ (s.list vb).reverse = [] := by
    refine List.eq_nil_iff_forall_not_mem.mpr fun r member => ?_
    have queued : r ∈ s.line vb := by
      rw [line, accounts.swept vb, List.flatten_append, List.append_assoc]
      exact List.mem_append_right _ member
    have home := (reliable.ordered.mem_line queued).2
    have flushed := accounts.flushed r
    have counted := List.count_pos_iff.mpr queued
    rw [line, List.count_append, List.count_reverse, ← home] at counted
    have pushed : r ∈ s.hist.flushed := List.count_pos_iff.mp (by omega)
    have released := reliable.conserved.released_of_drained drained pushed
    have handed := reliable.conserved.accounted.handed_of_released accounts released
    -- It would be in the line twice, once where it was handed over and once behind that.
    have staged := accounts.staged r
    have accepted : r ∈ s.hist.accepted := List.count_pos_iff.mp (by omega)
    have once := count_places reliable.ordered vb accepted home
    rw [home] at handed
    have first := List.count_pos_iff.mpr handed
    have second := List.count_pos_iff.mpr member
    rw [accounts.swept vb, List.flatten_append, List.count_append] at once
    rw [List.count_append, List.count_reverse] at second
    omega
  rw [line, accounts.swept vb, List.flatten_append, List.append_assoc, rest, List.append_nil]

/-- When `DrainWrites` finds the count at zero, with every accepted write pushed, none is lost: each is in one of the
batches that were swept and, sorted and without duplicates, handed to `WriteDocs`, once, those of a thread in the order
in which it staged them. Magma holds the last one of each key, and in async-durable mode the durable log covers them
all. -/
theorem drained_bucket_holds_every_write {maxBytes : ℕ} {store : UInt16 → Store} {seqnos : UInt16 → ℕ}
    (reached : Reach (restrict Succeeds State.step) (State.initial cfg maxBytes store seqnos) s)
    (drained : s.queuedBytes = 0) (flushed : ∀ r ∈ s.hist.accepted, r ∈ s.hist.flushed) (vb : UInt16) :
    (s.hist.handed vb).flatten.Perm (s.hist.accepted.filter fun r => r.vbucket = vb) ∧
      (∀ t, ((s.hist.handed vb).flatten.filter fun r => r.thread = t) = s.stagedBy t vb) ∧
      (∀ key, (s.store vb key).map Version.content =
        ((lastWrite key (s.hist.handed vb).flatten).map Request.content).or ((store vb key).map Version.content)) ∧
      (cfg.durable = true → cfg.asyncDurable = true → ∀ r ∈ s.hist.accepted, s.Durable r) := by
  have reliable := reliable_of_reach reached
  have ordered := reliable.ordered
  have unstaged := ordered.unstaged flushed
  have whole := reliable.line_of_drained drained vb
  have empty : s.list vb = [] ∧ (s.hist.handed vb).flatten = (s.hist.swept vb).flatten := by
    have sizes := congrArg List.length whole
    have sub := handed_sublist ordered vb
    rw [line, List.length_append, List.length_reverse] at sizes
    have fits := sub.length_le
    exact ⟨List.eq_nil_of_length_eq_zero (by omega), sub.eq_of_length (by omega)⟩
  refine ⟨?_, fun t => ?_, fun key => ?_, fun durable async r accepted => ?_⟩
  · rw [empty.2]
    exact swept_perm ordered vb (fun t => unstaged t vb) empty.1
  · rw [← ordered.inOrder t vb, unstaged, List.reverse_nil, List.append_nil, whole]
  · rw [reliable.applied.store, Store.writeDocs_content, reliable.applied.last]
  · have released := reliable.conserved.released_of_drained drained (flushed r accepted)
    refine (reliable.conserved.covered.released durable async r released).resolve_left ?_
    rw [reliable.failed]
    exact List.not_mem_nil

/-- Two writes of a key in one batch, and the bucket drained after it. -/
theorem drained_bucket_two_writes : ∃ s, Reach (restrict Succeeds State.step) (plainStart plainConfig 1000) s ∧
    s.hist.accepted = [plainSet 0 0 1, plainSet 1 0 2] ∧
      ((s.hist.handed 0).flatten.filter fun r => r.thread = 0) = s.stagedBy 0 0 := by
  let tape : List Event := [.put (plainSet 0 0 1) none, .accept (plainSet 0 0 1), .put (plainSet 1 0 2) none,
    .accept (plainSet 1 0 2), .charge 0, .push 0 0, .flushed 0, .sweep 0, .write 0 true, .mark 0 (plainSet 0 0 1) 1,
    .mark 0 (plainSet 1 0 2) 2, .settle 0]
  obtain ⟨s, reached, drained, accepted, pushed⟩ : ∃ s,
      Reach (restrict Succeeds State.step) (plainStart plainConfig 1000) s ∧ s.queuedBytes = 0 ∧
        s.hist.accepted = [plainSet 0 0 1, plainSet 1 0 2] ∧ s.hist.flushed = [plainSet 1 0 2, plainSet 0 0 1] :=
    exists_reach tape (by decide +kernel)
  have flushed : ∀ r ∈ s.hist.accepted, r ∈ s.hist.flushed := by
    rw [accepted, pushed]
    decide
  obtain ⟨-, staged, -⟩ := drained_bucket_holds_every_write reached drained flushed 0
  exact ⟨s, reached, accepted, staged 0⟩

/-! ## Reads -/

/-- No write is refused, no `WriteDocs` fails, the pins of a key fit in 32 bits, no write is pushed ahead of an earlier
put of its key, and the cache does not let go of a key while a read that is behind has a document of it in hand. -/
def Timely (s : State cfg) (e : Event) : Prop := s.Lossless e ∧ s.FitsPins e ∧ s.PushesInOrder e ∧ s.SparesReads e

instance (s : State cfg) (e : Event) : Decidable (s.Timely e) := inferInstanceAs (Decidable (_ ∧ _ ∧ _ ∧ _))

theorem Filled.timely (filled : s.Filled origin) (taken : restrict Timely State.step s e = some t) :
    t.Filled origin := by
  obtain ⟨⟨lossless, fits, order, spares⟩, taken⟩ := restrict_eq_some.mp taken
  exact filled.step lossless fits order spares taken

/-- The content was the latest of the key at some moment from one state to another. -/
def LatestBetween (origin : UInt16 → Store) (key : DocKey) (s t : State cfg) (content : Option Content) : Prop :=
  ∃ u, Reach (restrict Timely State.step) s u ∧ Reach (restrict Timely State.step) u t ∧ u.latest origin key = content

/-- What is known of a key at a state since an earlier one. -/
structure Since (origin : UInt16 → Store) (key : DocKey) (s t : State cfg) : Prop where
  reached : Reach (restrict Timely State.step) s t
  filled : t.Filled origin
  handed : s.hist.handed key.1 <+: t.hist.handed key.1
  puts : ∀ r ∈ t.hist.puts, r.docKey = key → r ∈ s.hist.puts ∨ LatestBetween origin key s t (some r.content)

theorem Since.step {u : State cfg} (since : Since origin key s t) (taken : restrict Timely State.step t e = some u) :
    Since origin key s u := by
  have reached := since.reached.tail taken
  have filled := since.filled.timely taken
  have earlier : ∀ {content}, LatestBetween origin key s t content → LatestBetween origin key s u content := by
    rintro content ⟨v, before, after, latest⟩
    exact ⟨v, before, after.tail taken, latest⟩
  obtain ⟨-, moved⟩ := restrict_eq_some.mp taken
  obtain ⟨-, rfl⟩ := step_eq_some.mp moved
  refine ⟨reached, filled, since.handed.trans ?_, fun r put same => ?_⟩
  · cases e with
    | write vb ok =>
      simp only [next, Function.update_apply]
      split
      · next here =>
        rw [here]
        exact List.prefix_append ..
      · exact List.prefix_rfl
    | _ => exact List.prefix_rfl
  · rw [hist_puts_next] at put
    rcases List.mem_append.mp put with old | new
    · exact (since.puts r old same).imp_right earlier
    · cases e with
      | put w cap =>
        obtain rfl := List.mem_singleton.mp new
        refine .inr ⟨_, reached, .refl _ _, ?_⟩
        simp [latest, putsOf, next, List.filter_append, same]
      | _ => exact (List.not_mem_nil new).elim

/-- What magma holds of a key was the latest at some moment since one at which no write of the key was pending. -/
theorem Since.store (since : Since origin key s t) (before : s.Agrees origin) (settled : s.Settled key) :
    LatestBetween origin key s t ((t.store key.1 key.2).map Version.content) := by
  obtain ⟨later, split⟩ := since.handed
  have now : (t.store key.1 key.2).map Version.content =
      ((lastWrite key.2 later.flatten).map Request.content).or ((s.store key.1 key.2).map Version.content) := by
    rw [since.filled.agrees.applied.store, before.applied.store, Store.writeDocs_content, Store.writeDocs_content,
      since.filled.agrees.applied.last, before.applied.last, ← split, List.flatten_append, lastWrite_append]
    cases lastWrite key.2 later.flatten <;> rfl
  cases last : lastWrite key.2 later.flatten with
  | none =>
    rw [now, last]
    exact ⟨s, .refl _ _, since.reached, (before.content_of_settled settled).symm⟩
  | some r =>
    rw [now, last]
    obtain ⟨front, back, shape, same, -⟩ := lastWrite_eq_some_iff.mp last
    have ordered := since.filled.agrees.unrefused.sorted.ordered
    have listed : r ∈ later.flatten := by
      rw [shape]
      exact List.mem_append_right _ List.mem_cons_self
    have whole : (s.hist.handed key.1).flatten ++ later.flatten = (t.hist.handed key.1).flatten := by
      rw [← split, List.flatten_append]
    have handed : r ∈ (t.hist.handed key.1).flatten := whole ▸ List.mem_append_right _ listed
    obtain ⟨put, home⟩ :=
      ordered.mem_line (List.mem_append_left _ ((handed_sublist ordered key.1).subset handed))
    have docKey : r.docKey = key := Prod.ext home same
    refine (since.puts r put docKey).resolve_left fun old => ?_
    -- A write from before was handed over before, and nothing is handed over twice.
    have distinct := (swept_nodup ordered key.1).sublist (handed_sublist ordered key.1)
    rw [← whole] at distinct
    exact (List.nodup_append.mp distinct).2.2 r (settled r old docKey) r listed rfl

/-- Besides, the read in this slot is not replaced by another. -/
def Awaits (i : ℕ) (s : State cfg) (e : Event) : Prop := s.Timely e ∧ i ∉ e.arrives

instance (i : ℕ) (s : State cfg) (e : Event) : Decidable (s.Awaits i e) := inferInstanceAs (Decidable (_ ∧ _))

theorem key_reads_next {i : ℕ} (other : i ∉ e.arrives) : ((s.next e).reads i).key = (s.reads i).key := by
  have kept : ∀ (j : ℕ) (read : Read), read.key = (s.reads j).key →
      (Function.update s.reads j read i).key = (s.reads i).key := by
    intro j read same
    rcases eq_or_ne i j with rfl | apart
    · rw [Function.update_self, same]
    · rw [Function.update_of_ne apart]
  cases e with
  | enqueueRead j key =>
    have apart : i ≠ j := List.ne_of_not_mem_cons other
    simp only [next, Function.update_of_ne apart]
  | write vb ok =>
    simp only [next]
    split <;> rfl
  | readTake j doc | readMiss j | fillCheck j | fillDoor j | fillInsert j => exact kept j _ rfl
  | _ => rfl

/-- A GET that misses the cache, until magma is asked. -/
theorem Filled.since_miss {i : ℕ} (filled : s.Filled origin) (missed : s.enabled (.enqueueRead i key))
    (reached : Reach (restrict (Awaits i) State.step) (s.next (.enqueueRead i key)) t) :
    Since origin key s t ∧ (t.reads i).key = key := by
  have first : restrict Timely State.step s (.enqueueRead i key) = some (s.next (.enqueueRead i key)) := by
    refine restrict_eq_some.mpr ⟨⟨⟨rfl, rfl⟩, ?_, ?_, fun _ _ _ => id⟩, step_eq_some.mpr ⟨missed, rfl⟩⟩
    · exact fun _ member => (List.not_mem_nil member).elim
    · exact fun _ member => (List.not_mem_nil member).elim
  have start : Since origin key s s :=
    ⟨.refl _ _, filled, List.prefix_rfl, fun _ put _ => .inl put⟩
  refine reached.invariant (P := fun t => Since origin key s t ∧ (t.reads i).key = key) ⟨start.step first, ?_⟩ ?_
  · simp only [next, Function.update_self]
  · rintro t e u ⟨since, same⟩ taken
    obtain ⟨⟨timely, other⟩, moved⟩ := restrict_eq_some.mp taken
    refine ⟨since.step (restrict_eq_some.mpr ⟨timely, moved⟩), ?_⟩
    obtain ⟨-, rfl⟩ := step_eq_some.mp moved
    rw [key_reads_next other, same]

/-- On a server with a cache, GETs of keys that are not empty are linearizable. One that hits the cache gets what the
last put of its key wrote. One that misses gets, from magma, what was the latest of its key at some moment between its
arrival and its answer, and is told that there is no document only if at such a moment there was none or it had been
deleted. A GET of the empty key may reach magma past a write that is still pending, as every GET does without a cache. -/
theorem gets_linearize {maxBytes : ℕ} (cached : 0 < maxBytes) {store : UInt16 → Store} {seqnos : UInt16 → ℕ}
    (reached : Reach (restrict Timely State.step) (State.initial cfg maxBytes store seqnos) s) :
    (∀ key p, s.cache.contents key = some p → s.latest store key = some p.doc.content) ∧
      ∀ i key t, key.2 ≠ [] → s.enabled (.enqueueRead i key) = true →
        Reach (restrict (Awaits i) State.step) (s.next (.enqueueRead i key)) t →
        (∀ doc, t.enabled (.readTake i doc) = true → LatestBetween store key s t (some doc.content)) ∧
          (t.enabled (.readMiss i) = true →
            ∃ content, LatestBetween store key s t content ∧ ∀ c ∈ content, c.deleted = true) := by
  have filled : s.Filled store :=
    reached.invariant (P := Filled store) (.initial cached store seqnos) fun before taken => before.timely taken
  refine ⟨filled.fresh, fun i key t nonempty missed later => ?_⟩
  obtain ⟨since, same⟩ := filled.since_miss missed later
  have absent := (of_decide_eq_true missed).2.resolve_left nonempty
  have stored := since.store filled.agrees (filled.pinning.exact.settled_of_absent filled.agrees.inLine absent)
  refine ⟨fun doc takes => ?_, fun misses => ⟨_, stored, fun content found => ?_⟩⟩
  · obtain ⟨-, held, -⟩ := of_decide_eq_true takes
    rw [same] at held
    rwa [held] at stored
  · obtain ⟨-, gone⟩ := of_decide_eq_true misses
    obtain ⟨doc, held, rfl⟩ := Option.map_eq_some_iff.mp found
    exact gone doc (by rwa [same])

/-- A write is applied and evicted, a GET misses, and before magma is asked another write is put and accepted. -/
theorem gets_linearize_overlapping : ∃ s t, Reach (restrict Timely State.step) (plainStart plainConfig 1) s ∧
    Reach (restrict (Awaits 0) State.step) (s.next (.enqueueRead 0 (0, [107]))) t ∧
      t.hist.puts = [plainSet 0 0 1, plainSet 1 0 2] ∧
      LatestBetween (fun _ _ => none) (0, [107]) s t (some (plainSet 0 0 1).content) := by
  let before : List Event := wholeWrite (plainSet 0 0 1) 1 ++ [.trim 0 (0, [107]), .settle 0]
  let after : List Event := [.put (plainSet 1 0 2) none, .accept (plainSet 1 0 2)]
  obtain ⟨s, run, missed, facts⟩ : ∃ s, exec (restrict Timely State.step) (plainStart plainConfig 1) before = some s ∧
      s.enabled (.enqueueRead 0 (0, [107])) ∧
      (exec (restrict (Awaits 0) State.step) (s.next (.enqueueRead 0 (0, [107]))) after).any fun t =>
        t.hist.puts = [plainSet 0 0 1, plainSet 1 0 2] ∧ t.enabled (.readTake 0 ⟨1, (plainSet 0 0 1).content⟩) :=
    exists_exec (by decide +kernel)
  obtain ⟨t, later, puts, takes⟩ := exists_exec facts
  obtain ⟨-, misses⟩ := gets_linearize (by decide) ⟨before, run⟩
  exact ⟨s, t, ⟨before, run⟩, ⟨after, later⟩, puts, (misses 0 _ t (by decide) missed ⟨after, later⟩).1 _ takes⟩

end State

end FluxKV.Engine
