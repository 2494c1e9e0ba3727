import FluxKV.Engine.Versions

/-! # What a failed batch leaves in the cache

A write is put into the cache before it is attempted. When `WriteDocs` fails, `executePersist` releases the pins
of the batch as if it had succeeded and leaves the entries alone. Here the write path runs with two records on
the side: the write each entry came from, and the documents magma has held. An entry is a phantom if it came from
a write of a failed batch.
-/

namespace FluxKV.Engine

open Protocol Cache Counting Machine

/-- The writes of a batch for which `WriteDocs` fails, its dropped duplicates included. -/
def State.lost {cfg : Config} (s : State cfg) : Event → List Request
  | .write vb false => (s.writer vb).batch
  | _ => []

theorem State.hist_failed_next {cfg : Config} (s : State cfg) (e : Event) :
    (s.next e).hist.failed = s.hist.failed ++ s.lost e := by
  cases e with
  | write vb ok =>
    cases ok with
    | false => rfl
    | true => exact (List.append_nil _).symm
  | _ => exact (List.append_nil _).symm

/-- The write path, the write each cached entry came from, none if a read filled it, and the documents magma has
held so far. -/
structure Traced (cfg : Config) where
  server : State cfg
  author : DocKey → Option Request
  stores : List (UInt16 → Store)

namespace Traced

variable {cfg : Config} {s t : Traced cfg} {e : Event} {key : DocKey} {doc : Version}

def start (server : State cfg) : Traced cfg := ⟨server, fun _ => none, [server.store]⟩

/-- A put takes over the entry of its key, and an entry that leaves the cache has no author. -/
def authorAfter (s : Traced cfg) (e : Event) (key : DocKey) : Option Request :=
  if (s.server.next e).hit key = none then none else (e.puts.find? fun r => r.docKey = key).or (s.author key)

def next (s : Traced cfg) (e : Event) : Traced cfg :=
  ⟨s.server.next e, s.authorAfter e, (s.server.next e).store :: s.stores⟩

def step (s : Traced cfg) (e : Event) : Option (Traced cfg) := if s.server.enabled e then some (s.next e) else none

theorem step_eq_some : s.step e = some t ↔ s.server.enabled e ∧ t = s.next e :=
  ite_some_eq_some.trans (and_congr_right fun _ => eq_comm)

/-- Magma held a version of the key with this content at some time. -/
def Accepted (s : Traced cfg) (key : DocKey) (content : Content) : Prop :=
  ∃ store ∈ s.stores, (store key.1 key.2).map Version.content = some content

/-- What a hit returns is the content of a write that has not failed, or of a version magma has held. -/
def NoPhantom (s : Traced cfg) : Prop :=
  ∀ key doc, s.server.hit key = some doc →
    (∃ r, s.author key = some r ∧ r ∉ s.server.hist.failed ∧ doc.content = r.content) ∨
      s.author key = none ∧ s.Accepted key doc.content

/-- When `WriteDocs` fails, every write of the batch has lost its entry: to a later put of the key, to an erase or
to an eviction. -/
def Superseded (s : Traced cfg) (e : Event) : Prop := ∀ r ∈ s.server.lost e, s.author r.docKey ≠ some r

instance (s : Traced cfg) (e : Event) : Decidable (s.Superseded e) := inferInstanceAs (Decidable (∀ r ∈ _, _))

/-- Every entry has the content of its author or came from magma. -/
structure Credited (s : Traced cfg) : Prop where
  ordered : s.server.Ordered
  absent : ∀ key, s.server.hit key = none → s.author key = none
  held : ∀ key doc, s.server.hit key = some doc →
    (∃ r, s.author key = some r ∧ r.docKey = key ∧ doc.content = r.content) ∨
      s.author key = none ∧ s.Accepted key doc.content
  taken : ∀ i, (s.server.reads i).phase.holding = true → s.Accepted (s.server.reads i).key (s.server.reads i).doc.content
  current : s.server.store ∈ s.stores
  failed : ∀ r ∈ s.server.hist.failed, r ∈ s.server.hist.puts

theorem Accepted.next {content : Content} (accepted : s.Accepted key content) (e : Event) :
    (s.next e).Accepted key content := by
  obtain ⟨store, member, found⟩ := accepted
  exact ⟨store, List.mem_cons_of_mem _ member, found⟩

theorem author_next_of_hit (held : (s.server.next e).hit key = some doc) :
    (s.next e).author key = (e.puts.find? fun r => r.docKey = key).or (s.author key) := by
  refine if_neg ?_
  rw [held]
  exact Option.some_ne_none doc

/-- Without a put of the key, its entry keeps its author. -/
theorem author_next_of_unput (held : (s.server.next e).hit key = some doc) (unput : ∀ r ∈ e.puts, r.docKey ≠ key) :
    (s.next e).author key = s.author key := by
  have none : e.puts.find? (fun r => r.docKey = key) = none :=
    List.find?_eq_none.mpr fun r own => by simpa using unput r own
  rw [author_next_of_hit held, none, Option.none_or]

private theorem held_next (credited : s.Credited) (able : s.server.enabled e)
    (held : (s.server.next e).hit key = some doc) :
    (∃ r, (s.next e).author key = some r ∧ r.docKey = key ∧ doc.content = r.content) ∨
      (s.next e).author key = none ∧ (s.next e).Accepted key doc.content := by
  cases State.leaves_of_hit held with
  | kept before unput =>
    rw [author_next_of_unput held unput]
    exact (credited.held key doc before).imp_right fun filled => ⟨filled.1, filled.2.next e⟩
  | put r cap =>
    refine .inl ⟨r, ?_, rfl, rfl⟩
    rw [author_next_of_hit held]
    simp [Event.puts]
  | @marked old vb r seqno before =>
    rw [author_next_of_unput held (by rintro _ ⟨⟩), State.content_noteSeqno]
    exact (credited.held _ old before).imp_right fun filled => ⟨filled.1, filled.2.next _⟩
  | filled i before =>
    rw [author_next_of_unput held (by rintro _ ⟨⟩), credited.absent _ before]
    exact .inr ⟨rfl, (credited.taken i (State.mayInsert.holding (of_decide_eq_true able))).next _⟩

private theorem taken_next (credited : s.Credited) (able : s.server.enabled e) (i : ℕ)
    (holding : ((s.server.next e).reads i).phase.holding = true) :
    (s.next e).Accepted ((s.server.next e).reads i).key ((s.server.next e).reads i).doc.content := by
  rcases State.holding_next able i holding with ⟨before, key, doc, _⟩ | ⟨found, _⟩
  · rw [key, doc]
    exact (credited.taken i before).next e
  · exact ⟨s.server.store, List.mem_cons_of_mem _ credited.current, by rw [found]; rfl⟩

/-- A batch about to be written was put. -/
private theorem mem_puts_of_lost (ordered : s.server.Ordered) (able : s.server.enabled e) {r : Request}
    (lost : r ∈ s.server.lost e) : r ∈ s.server.hist.puts := by
  cases e with
  | write vb ok =>
    cases ok with
    | true => exact (List.not_mem_nil lost).elim
    | false =>
      have phase : (s.server.writer vb).phase = .swept := of_decide_eq_true able
      have swept : r ∈ (s.server.hist.swept vb).flatten := by
        rw [ordered.flow.accounts.swept vb, List.flatten_append]
        refine List.mem_append_right _ ?_
        rw [Writer.unwritten, phase, List.flatten_singleton]
        exact lost
      exact (ordered.mem_line (List.mem_append_left _ swept)).1
  | _ => exact (List.not_mem_nil lost).elim

/-- A write that has failed was put before the step. -/
private theorem mem_puts_of_failed (credited : s.Credited) (able : s.server.enabled e) {r : Request}
    (failed : r ∈ (s.server.next e).hist.failed) : r ∈ s.server.hist.puts := by
  rw [State.hist_failed_next] at failed
  rcases List.mem_append.mp failed with old | lost
  · exact credited.failed r old
  · exact mem_puts_of_lost credited.ordered able lost

private theorem failed_next (credited : s.Credited) (able : s.server.enabled e) :
    ∀ r ∈ (s.server.next e).hist.failed, r ∈ (s.server.next e).hist.puts := by
  intro r failed
  rw [State.hist_puts_next]
  exact List.mem_append_left _ (mem_puts_of_failed credited able failed)

theorem Credited.step (credited : s.Credited) (stepped : s.step e = some t) : t.Credited := by
  obtain ⟨able, rfl⟩ := step_eq_some.mp stepped
  exact ⟨credited.ordered.step (State.step_eq_some.mpr ⟨able, rfl⟩), fun key gone => if_pos gone,
    fun _ _ held => held_next credited able held, taken_next credited able, List.mem_cons_self,
    failed_next credited able⟩

theorem Credited.initial (maxBytes : ℕ) (store : UInt16 → Store) (seqnos : UInt16 → ℕ) :
    (start (State.initial cfg maxBytes store seqnos)).Credited where
  ordered := .initial maxBytes store seqnos
  absent _ _ := rfl
  held key _ held := by cases (State.hit_initial maxBytes store seqnos key).symm.trans held
  taken _ holding := Bool.noConfusion holding
  current := List.mem_singleton_self _
  failed _ member := (List.not_mem_nil member).elim

/-- The author of an entry is a write of its key. -/
theorem Credited.docKey_of_author (credited : s.Credited) {r : Request} (author : s.author key = some r) :
    r.docKey = key ∧ ∃ doc, s.server.hit key = some doc := by
  cases held : s.server.hit key with
  | none => cases (credited.absent key held).symm.trans author
  | some doc =>
    rcases credited.held key doc held with ⟨w, same, home, _⟩ | ⟨none, _⟩
    · obtain rfl := Option.some.inj (same.symm.trans author)
      exact ⟨home, doc, rfl⟩
    · cases none.symm.trans author

/-- An author after the step was put by it or was the author before. -/
theorem author_next {r : Request} (author : (s.next e).author key = some r) : r ∈ e.puts ∨ s.author key = some r := by
  cases held : (s.server.next e).hit key with
  | none => cases (if_pos held : (s.next e).author key = none).symm.trans author
  | some doc =>
    rw [author_next_of_hit held] at author
    rcases Option.or_eq_some_iff.mp author with found | ⟨_, old⟩
    · exact .inl (List.mem_of_find?_eq_some found)
    · exact .inr old

/-- Besides, no entry came from a write that failed. -/
structure Sound (s : Traced cfg) : Prop where
  credited : s.Credited
  unfailed : ∀ key r, s.author key = some r → r ∉ s.server.hist.failed

theorem Sound.noPhantom (sound : s.Sound) : s.NoPhantom := by
  intro key doc held
  rcases sound.credited.held key doc held with ⟨r, author, _, content⟩ | filled
  · exact .inl ⟨r, author, sound.unfailed key r author, content⟩
  · exact .inr filled

/-- A new put has an identity no failed write has, and an older author is not among the writes that fail now. -/
theorem Sound.step (sound : s.Sound) (superseded : s.Superseded e) (stepped : s.step e = some t) : t.Sound := by
  have credited := sound.credited.step stepped
  obtain ⟨able, rfl⟩ := step_eq_some.mp stepped
  refine ⟨credited, fun key r author failed => ?_⟩
  have old := mem_puts_of_failed sound.credited able failed
  have failed : r ∈ s.server.hist.failed ++ s.server.lost e := State.hist_failed_next s.server e ▸ failed
  rcases author_next author with put | author
  · cases e with
    | put w cap =>
      obtain rfl := List.mem_singleton.mp put
      obtain ⟨_, fresh, _⟩ := of_decide_eq_true able
      have known := sound.credited.ordered.flow.accounts.ids r old
      omega
    | _ => exact (List.not_mem_nil put).elim
  · obtain ⟨home, _⟩ := sound.credited.docKey_of_author author
    rcases List.mem_append.mp failed with before | lost
    · exact sound.unfailed key r author before
    · exact superseded r lost (home ▸ author)

theorem Sound.initial (maxBytes : ℕ) (store : UInt16 → Store) (seqnos : UInt16 → ℕ) :
    (start (State.initial cfg maxBytes store seqnos)).Sound :=
  ⟨.initial maxBytes store seqnos, fun _ _ author => by cases author⟩

private theorem hit_next_of_lost {r : Request} (lost : r ∈ s.server.lost e) (key : DocKey) :
    (s.server.next e).hit key = s.server.hit key ∧ e.puts = [] := by
  cases e with
  | write vb ok => exact ⟨rfl, rfl⟩
  | _ => exact (List.not_mem_nil lost).elim

/-- A write that still has its entry when its batch fails makes the entry a phantom. -/
theorem Sound.exposed (sound : s.Sound) (owns : ¬ s.Superseded e) (stepped : s.step e = some t) : ¬ t.NoPhantom := by
  obtain ⟨able, rfl⟩ := step_eq_some.mp stepped
  simp only [Superseded, not_forall, not_not] at owns
  obtain ⟨r, lost, author⟩ := owns
  obtain ⟨_, doc, held⟩ := sound.credited.docKey_of_author author
  obtain ⟨same, unput⟩ := hit_next_of_lost lost r.docKey
  have author' : (s.next e).author r.docKey = some r := by
    rw [author_next_of_unput (same.trans held) (by rw [unput]; rintro _ ⟨⟩)]
    exact author
  intro clean
  rcases clean r.docKey doc (same.trans held) with ⟨w, owner, unfailed, _⟩ | ⟨none, _⟩
  · obtain rfl := Option.some.inj (owner.symm.trans author')
    refine unfailed ?_
    have failed := State.hist_failed_next s.server e
    exact failed ▸ List.mem_append_right _ lost
  · cases none.symm.trans author'

/-- From the moment a `WriteDocs` fails no cache entry holds a write of its batch, and every hit returns a write
that has not failed or a version magma has held, exactly when each batch that fails has lost all its entries by
then. -/
theorem failed_batch_leaves_no_phantom {maxBytes : ℕ} {store : UInt16 → Store} {seqnos : UInt16 → ℕ}
    {tape : List Event} (run : exec step (start (State.initial cfg maxBytes store seqnos)) tape = some t) :
    Along step NoPhantom (start (State.initial cfg maxBytes store seqnos)) tape ↔
      exec (restrict Superseded step) (start (State.initial cfg maxBytes store seqnos)) tape = some t :=
  along_iff_restrict (Sound.initial maxBytes store seqnos) (fun sound superseded taken => sound.step superseded taken)
    Sound.noPhantom (fun sound owns taken => sound.exposed owns taken) run

end Traced

/-- The first SET of `k` fails after a second one has been put: the cache keeps the second. -/
theorem failed_batch_leaves_no_phantom_replaced : ∃ t, ∃ tape : List Event,
    exec Traced.step (.start (plainStart plainConfig 1000)) tape = some t ∧
      t.server.hist.failed = [plainSet 0 0 1] ∧ t.server.hit (0, [107]) = some ⟨0, (plainSet 1 0 2).content⟩ ∧
      Along Traced.step Traced.NoPhantom (.start (plainStart plainConfig 1000)) tape := by
  let tape : List Event := [.put (plainSet 0 0 1) none, .accept (plainSet 0 0 1), .charge 0, .push 0 0, .flushed 0,
    .sweep 0, .put (plainSet 1 0 2) none, .write 0 false, .mark 0 (plainSet 0 0 1) 1, .settle 0]
  obtain ⟨t, run, failed, hit⟩ : ∃ t,
      exec (restrict Traced.Superseded Traced.step) (.start (plainStart plainConfig 1000)) tape = some t ∧
        t.server.hist.failed = [plainSet 0 0 1] ∧ t.server.hit (0, [107]) = some ⟨0, (plainSet 1 0 2).content⟩ :=
    exists_exec (by decide +kernel)
  have plain := exec_of_restrict run
  exact ⟨t, tape, plain, failed, hit, (Traced.failed_batch_leaves_no_phantom plain).mpr run⟩

/-- A SET of `k` into an empty server fails. Its batch is finished, magma has no version of `k`, and the cache
serves the value that was never stored. -/
theorem failed_write_stays_cached : ∃ t, Reach Traced.step (.start (plainStart plainConfig 1000)) t ∧
    t.server.hist.failed = [plainSet 0 0 1] ∧ t.server.hist.puts = [plainSet 0 0 1] ∧
      (t.server.writer 0).phase = .idle ∧ t.server.store 0 [107] = none ∧
      t.server.hit (0, [107]) = some ⟨0, (plainSet 0 0 1).content⟩ ∧ ¬ t.NoPhantom := by
  obtain ⟨t, reached, failed, puts, idle, stored, hit, author⟩ : ∃ t,
      Reach Traced.step (.start (plainStart plainConfig 1000)) t ∧ t.server.hist.failed = [plainSet 0 0 1] ∧
        t.server.hist.puts = [plainSet 0 0 1] ∧ (t.server.writer 0).phase = .idle ∧ t.server.store 0 [107] = none ∧
        t.server.hit (0, [107]) = some ⟨0, (plainSet 0 0 1).content⟩ ∧ t.author (0, [107]) = some (plainSet 0 0 1) :=
    exists_reach [.put (plainSet 0 0 1) none, .accept (plainSet 0 0 1), .charge 0, .push 0 0, .flushed 0, .sweep 0,
      .write 0 false, .mark 0 (plainSet 0 0 1) 1, .settle 0] (by decide +kernel)
  refine ⟨t, reached, failed, puts, idle, stored, hit, fun clean => ?_⟩
  rcases clean _ _ hit with ⟨r, owner, unfailed, _⟩ | ⟨none, _⟩
  · obtain rfl := Option.some.inj (owner.symm.trans author)
    rw [failed] at unfailed
    exact unfailed (List.mem_singleton_self _)
  · cases none.symm.trans author

end FluxKV.Engine
