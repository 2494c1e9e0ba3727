import FluxKV.Engine.PutOrder

/-! # Whether the cache and the store agree

A put leaves its own document in the cache, and with the puts of a key applied in their order that is the
document magma ends up with. A read fill brings a document that was taken earlier. It inserts only for a key
with no write pending, but that does not make the document current: the write may have come, been
applied, been unpinned and been evicted since the document was taken. `fills_insert_current_iff` says which
evictions make the difference.
-/

namespace FluxKV.Engine

open Protocol Cache Counting Machine

/-- A read fill reaches its insert section. -/
def Event.fills : Event → Bool
  | .fillInsert _ => true
  | _ => false

/-- The read has a document in hand. -/
def ReadPhase.holding : ReadPhase → Bool
  | .taken | .checked | .admitted => true
  | .idle | .queued => false

/-- The read has a document in hand, and a write of its key was applied after it took it. -/
def Read.Behind (read : Read) : Prop := read.phase.holding = true ∧ read.overtaken = true

instance (read : Read) : Decidable read.Behind := inferInstanceAs (Decidable (_ ∧ _))

/-- What a read has in hand is current, unless it is behind. -/
def Read.Sound (store : UInt16 → Store) (read : Read) : Prop :=
  read.phase.holding = true → read.overtaken = false → store read.key.1 read.key.2 = some read.doc

namespace State

variable {cfg : Config} {s : State cfg} {e : Event} {origin : UInt16 → Store}

/-- A write of the key is applied. -/
def overtakes (s : State cfg) : Event → DocKey → Bool
  | .write vb true, key =>
    decide (∃ r ∈ (planBatch cfg.batchSort cfg.sortDupThreshold (s.writer vb).batch).1, (vb, r.key) = key)
  | _, _ => false

/-- The read whose document an event inserts. -/
def filling (s : State cfg) : Event → List Read
  | .fillInsert i => if s.cache.contents (s.reads i).key = none then [s.reads i] else []
  | _ => []

/-- A read that has a document in hand had it before the step, or takes it from magma in the step. -/
theorem holding_next (able : s.enabled e) (i : ℕ) (holding : ((s.next e).reads i).phase.holding = true) :
    ((s.reads i).phase.holding = true ∧ ((s.next e).reads i).key = (s.reads i).key ∧
        ((s.next e).reads i).doc = (s.reads i).doc ∧
        ((s.next e).reads i).overtaken = ((s.reads i).overtaken || s.overtakes e (s.reads i).key)) ∨
      s.store ((s.next e).reads i).key.1 ((s.next e).reads i).key.2 = some ((s.next e).reads i).doc ∧
        ((s.next e).reads i).doc.content.deleted = false ∧ ((s.next e).reads i).overtaken = false ∧
        (s.next e).store = s.store := by
  let Brings (i : ℕ) (read : Read) : Prop := read.phase.holding = true →
    ((s.reads i).phase.holding = true ∧ read.key = (s.reads i).key ∧ read.doc = (s.reads i).doc ∧
        read.overtaken = ((s.reads i).overtaken || s.overtakes e (s.reads i).key)) ∨
      s.store read.key.1 read.key.2 = some read.doc ∧ read.doc.content.deleted = false ∧ read.overtaken = false ∧
        (s.next e).store = s.store
  have kept : (∀ key, s.overtakes e key = false) → ∀ j, Brings j (s.reads j) :=
    fun none j holding => .inl ⟨holding, rfl, rfl, by rw [none, Bool.or_false]⟩
  revert i
  cases e with
  | write vb ok =>
    intro i holding
    simp only [next] at holding ⊢
    split at holding
    · next hit =>
      obtain ⟨rfl, member⟩ := hit
      rw [if_pos ⟨rfl, member⟩, overtakes, decide_eq_true (List.mem_map.mp member), Bool.or_true]
      exact .inl ⟨holding, rfl, rfl, rfl⟩
    · next missed =>
      rw [if_neg missed]
      refine .inl ⟨holding, rfl, rfl, ?_⟩
      cases ok with
      | false => exact (Bool.or_false _).symm
      | true => rw [overtakes, decide_eq_false fun member => missed ⟨rfl, List.mem_map.mpr member⟩, Bool.or_false]
  | enqueueRead | readMiss | fillInsert =>
    exact forall_update (P := Brings) (fun holding => Bool.noConfusion holding) (kept fun _ => rfl)
  | readTake j doc =>
    obtain ⟨_, found, live⟩ := of_decide_eq_true able
    exact forall_update (P := Brings) (fun _ => .inr ⟨found, live, rfl, rfl⟩) (kept fun _ => rfl)
  | fillCheck j =>
    have phase : (s.reads j).phase = .taken := of_decide_eq_true able
    exact forall_update (P := Brings) (fun _ => kept (fun _ => rfl) j (by rw [phase]; rfl)) (kept fun _ => rfl)
  | fillDoor j =>
    obtain ⟨phase, _⟩ := of_decide_eq_true able
    exact forall_update (P := Brings) (fun _ => kept (fun _ => rfl) j (by rw [phase]; rfl)) (kept fun _ => rfl)
  | _ => exact kept fun _ => rfl

theorem exists_of_overtakes {key : DocKey} (applied : s.overtakes e key = true) : ∃ vb, e = .write vb true ∧
    ∃ r ∈ (planBatch cfg.batchSort cfg.sortDupThreshold (s.writer vb).batch).1, (vb, r.key) = key := by
  unfold overtakes at applied
  split at applied
  · exact ⟨_, rfl, of_decide_eq_true applied⟩
  · cases applied

theorem store_next_of_not_overtakes {key : DocKey} (untouched : s.overtakes e key = false) :
    (s.next e).store key.1 key.2 = s.store key.1 key.2 := by
  cases e with
  | write vb ok =>
    cases ok with
    | false => rfl
    | true =>
      simp only [next, if_true]
      by_cases same : key.1 = vb
      · rw [same, Function.update_self, Store.writeDocs_of_forall_ne]
        intro op member equal
        refine of_decide_eq_false untouched ⟨op.1, ?_, Prod.ext same.symm equal⟩
        rw [← assignSeqnos_map_fst (s.seqnos vb) (planBatch _ _ _).1]
        exact List.mem_map_of_mem member
      · rw [Function.update_of_ne same]
  | _ => rfl

/-- What is applied has a seqno that the vbucket had not given out. -/
theorem store_next_of_overtakes {key : DocKey} (applied : s.overtakes e key = true) :
    ∃ v, (s.next e).store key.1 key.2 = some v ∧ s.seqnos key.1 < v.seqno := by
  obtain ⟨vb, rfl, r, kept, rfl⟩ := exists_of_overtakes applied
  let ops := assignSeqnos (s.seqnos vb) (planBatch cfg.batchSort cfg.sortDupThreshold (s.writer vb).batch).1
  have written : (s.next (.write vb true)).store vb = (s.store vb).writeDocs ops := Function.update_self ..
  have nonempty : (ops.filter fun op => op.1.key = r.key) ≠ [] := by
    rw [← assignSeqnos_map_fst (s.seqnos vb) (planBatch _ _ _).1] at kept
    obtain ⟨op, member, rfl⟩ := List.mem_map.mp kept
    exact List.ne_nil_of_mem (List.mem_filter.mpr ⟨member, decide_eq_true rfl⟩)
  obtain ⟨op, last⟩ := Option.ne_none_iff_exists'.mp (mt List.getLast?_eq_none_iff.mp nonempty)
  have recent := (mem_assignSeqnos_bounds (List.mem_filter.mp (List.mem_of_getLast? last)).1).1
  refine ⟨⟨op.2, op.1.content⟩, ?_, recent⟩
  rw [written, Store.writeDocs_apply, last]
  rfl

private theorem sound_next (sound : ∀ i, (s.reads i).Sound s.store) (able : s.enabled e) (i : ℕ) :
    ((s.next e).reads i).Sound (s.next e).store := by
  intro holding current
  rcases holding_next able i holding with ⟨before, key, doc, overtaken⟩ | ⟨found, _, _, store⟩
  · rw [current] at overtaken
    obtain ⟨fresh, untouched⟩ := Bool.or_eq_false_iff.mp overtaken.symm
    rw [key, doc, store_next_of_not_overtakes untouched]
    exact sound i before fresh
  · rwa [store]

theorem mayInsert.holding {i : ℕ} (may : s.mayInsert i) : (s.reads i).phase.holding = true := by
  rcases may with phase | ⟨phase, _⟩
  · rw [phase]; rfl
  · rw [phase]; rfl

/-- A key that is not resident has no write pending. -/
theorem PinsExact.settled_of_absent (exact : s.PinsExact) (inLine : s.InLine) {key : DocKey}
    (absent : s.cache.contents key = none) : s.Settled key := by
  rintro r put rfl
  have accounts := exact.flow.accounts
  have unpinned : s.hist.pins.count r = 0 := by
    apply List.count_eq_zero.mpr
    intro pinned
    have := exact.pending_pos pinned
    rw [Contents.pending_eq_zero absent] at this
    omega
  have places := accounts.pins r
  rcases inLine.placed r put with unpushed | flushed
  · rcases (accounts.unpushed r).mp unpushed with handled | staged
    · have := List.count_pos_iff.mpr handled
      omega
    · have := List.count_pos_iff.mpr staged
      omega
  · have := List.count_pos_iff.mpr flushed
    have queued := accounts.flushed r
    have swept : r ∈ (s.hist.swept r.vbucket).flatten := List.count_pos_iff.mp (by omega)
    rw [accounts.swept, List.flatten_append] at swept
    rcases List.mem_append.mp swept with handed | unwritten
    · exact handed
    · have := List.count_pos_iff.mpr (Writer.mem_unmarked_of_unwritten unwritten)
      omega

/-- The cache holds, for a resident key, what the last put wrote. -/
def Fresh (origin : UInt16 → Store) (s : State cfg) : Prop :=
  ∀ key p, s.cache.contents key = some p → s.latest origin key = some p.doc.content

private theorem latest_put (r : Request) (cap : Option ℕ) (key : DocKey) :
    (s.next (.put r cap)).latest origin key = if r.docKey = key then some r.content else s.latest origin key := by
  by_cases same : r.docKey = key
  · simp [latest, putsOf, next, List.filter_append, same]
  · simp [latest, putsOf, next, List.filter_append, same]

private theorem fresh_put (fresh : s.Fresh origin) (r : Request) (cap : Option ℕ) {key : DocKey} {p : Pinned Version}
    (held : (s.next (.put r cap)).cache.contents key = some p) :
    (s.next (.put r cap)).latest origin key = some p.doc.content := by
  have before := s.cache.held_of_put held
  rw [latest_put]
  by_cases same : r.docKey = key
  · subst same
    rw [Contents.put, Contents.alter_self] at before
    rw [if_pos rfl, ← Option.some.inj before]
  · rw [Contents.put, Contents.alter_of_ne _ _ (Ne.symm same)] at before
    rw [if_neg same]
    exact fresh key p before

theorem content_noteSeqno (seqno : ℕ) (doc : Version) : (Shard.noteSeqno seqno doc).content = doc.content := by
  unfold Shard.noteSeqno
  split <;> rfl

private theorem fresh_mark (fresh : s.Fresh origin) (vb : UInt16) (r : Request) (seqno : ℕ) {key : DocKey}
    {p : Pinned Version} (held : (s.next (.mark vb r seqno)).cache.contents key = some p) :
    s.latest origin key = some p.doc.content := by
  have before := (s.cache.markPersisted_evicts (vb, r.key) (if (s.writer vb).ok then seqno else 0)).held held
  by_cases same : key = (vb, r.key)
  · subst same
    rw [Contents.unpin, Contents.alter_self] at before
    obtain ⟨old, found, rfl⟩ := Option.map_eq_some_iff.mp before
    rw [content_noteSeqno]
    exact fresh _ old found
  · rw [Contents.unpin, Contents.alter_of_ne _ _ same] at before
    exact fresh key p before

theorem absent_of_filling {read : Read} (member : read ∈ s.filling e) : s.cache.contents read.key = none := by
  cases e with
  | fillInsert i =>
    simp only [filling] at member
    split at member
    · next absent =>
      obtain rfl := List.mem_singleton.mp member
      exact absent
    · exact (List.not_mem_nil member).elim
  | _ => exact (List.not_mem_nil member).elim

private theorem fresh_fill (fresh : s.Fresh origin) (i : ℕ)
    (filled : ∀ read ∈ s.filling (.fillInsert i), s.latest origin read.key = some read.doc.content) {key : DocKey}
    {p : Pinned Version} (held : (s.next (.fillInsert i)).cache.contents key = some p) :
    s.latest origin key = some p.doc.content := by
  have before := (s.cache.fillInsert_evicts (s.reads i).key (s.reads i).doc).held held
  by_cases same : key = (s.reads i).key
  · subst same
    rw [Contents.fill, Contents.alter_self] at before
    cases old : s.cache.contents (s.reads i).key with
    | some q =>
      rw [old, Option.some_or] at before
      exact fresh _ p (old.trans before)
    | none =>
      rw [old, Option.none_or] at before
      obtain rfl := Option.some.inj before
      exact filled (s.reads i) (by simp [filling, old])
  · rw [Contents.fill, Contents.alter_of_ne _ _ same] at before
    exact fresh key p before

/-- A put installs its own content, the other operations keep or drop what is there, and a fill is as good
as the document it brings. -/
theorem Fresh.next (unrefused : s.Unrefused) (fresh : s.Fresh origin) (able : s.enabled e)
    (filled : ∀ read ∈ s.filling e, s.latest origin read.key = some read.doc.content) : (s.next e).Fresh origin := by
  intro key p held
  cases e with
  | put r cap => exact fresh_put fresh r cap held
  | erase r =>
    have refused := unrefused.sorted.ordered.flow.accounts.mem_refused_of_pc (of_decide_eq_true able)
    rw [unrefused.refused] at refused
    exact (List.not_mem_nil refused).elim
  | mark vb r seqno => exact fresh_mark fresh vb r seqno held
  | trim vb key' => exact fresh key p ((s.cache.trim_evicts key').held held)
  | fillDoor i => exact fresh key p ((s.cache.fillDoorkeeper_evicts _).held held)
  | fillInsert i => exact fresh_fill fresh i filled held
  | touch key' => exact fresh key p ((s.cache.touch_evicts key').held held)
  | setBudget i maxBytes => exact fresh key p ((s.cache.setBudget_evicts i maxBytes).held held)
  | _ => exact fresh key p held

/-- Writes reach magma in the order of their puts. -/
structure Agrees (origin : UInt16 → Store) (s : State cfg) : Prop where
  unrefused : s.Unrefused
  numbered : s.Numbered
  inLine : s.InLine
  applied : s.Applied origin

theorem Agrees.content_of_settled (agrees : s.Agrees origin) {key : DocKey} (settled : s.Settled key) :
    (s.store key.1 key.2).map Version.content = s.latest origin key :=
  agrees.applied.content_eq_latest agrees.unrefused.sorted.ordered agrees.numbered agrees.inLine settled

theorem Agrees.step {t : State cfg} (agrees : s.Agrees origin) (admits : s.Admits e) (succeeds : e.fails = false)
    (order : s.PushesInOrder e) (taken : s.step e = some t) : t.Agrees origin := by
  have unrefused := agrees.unrefused.step admits taken
  obtain ⟨able, rfl⟩ := step_eq_some.mp taken
  have ordered := agrees.unrefused.sorted.ordered
  exact ⟨unrefused, agrees.numbered.next ordered.flow able,
    agrees.inLine.next ordered agrees.numbered able admits order, agrees.applied.next succeeds⟩

theorem Agrees.initial (maxBytes : ℕ) (store : UInt16 → Store) (seqnos : UInt16 → ℕ) :
    (State.initial cfg maxBytes store seqnos).Agrees store where
  unrefused := .initial maxBytes store seqnos
  numbered := .initial maxBytes store seqnos
  inLine := .initial maxBytes store seqnos
  applied := .initial maxBytes store seqnos

theorem Fresh.initial (maxBytes : ℕ) (store : UInt16 → Store) (seqnos : UInt16 → ℕ) :
    (State.initial cfg maxBytes store seqnos).Fresh origin :=
  fun key _ held => by cases (BucketCache.contents_start maxBytes key).symm.trans held

/-- No write is refused, no `WriteDocs` fails and no read fills the cache. -/
def Quiet (_ : State cfg) (e : Event) : Prop := e.refuses = [] ∧ e.fails = false ∧ e.fills = false

/-- Nothing of that happens, and no write is pushed ahead of an earlier put of its key. -/
def WritesInOrder (s : State cfg) (e : Event) : Prop := s.Quiet e ∧ s.PushesInOrder e

instance (s : State cfg) (e : Event) : Decidable (s.Quiet e) := inferInstanceAs (Decidable (_ ∧ _ ∧ _))

instance (s : State cfg) (e : Event) : Decidable (s.WritesInOrder e) := inferInstanceAs (Decidable (_ ∧ _))

private theorem filling_eq_nil (unfilled : e.fills = false) : s.filling e = [] := by
  cases e with
  | fillInsert i => cases unfilled
  | _ => rfl

/-- Without fills, what the cache holds was put. -/
private theorem written_of_reach {maxBytes : ℕ} {store : UInt16 → Store} {seqnos : UInt16 → ℕ}
    (reached : Reach (restrict WritesInOrder State.step) (State.initial cfg maxBytes store seqnos) s) :
    s.Agrees store ∧ s.Fresh fun _ _ => none := by
  refine reached.invariant (P := fun s => s.Agrees store ∧ s.Fresh fun _ _ => none)
    ⟨.initial maxBytes store seqnos, .initial maxBytes store seqnos⟩ ?_
  rintro s e t ⟨agrees, fresh⟩ taken
  obtain ⟨⟨⟨admits, succeeds, unfilled⟩, order⟩, taken⟩ := restrict_eq_some.mp taken
  have none : ∀ read, read ∉ s.filling e := by
    rw [filling_eq_nil unfilled]
    exact fun _ => List.not_mem_nil
  refine ⟨agrees.step admits succeeds order taken, ?_⟩
  obtain ⟨able, rfl⟩ := step_eq_some.mp taken
  exact fresh.next agrees.unrefused able fun read member => (none read member).elim

/-- The operation of a key that magma applied last is the one with the largest seqno, and magma holds it. -/
theorem Applied.exists_last (applied : s.Applied origin) (ordered : s.Ordered) {vb : UInt16} {key : Bytes} {r : Request}
    (handed : r ∈ (s.hist.handed vb).flatten) (here : r.key = key) :
    ∃ op ∈ s.hist.assigned vb, op.1.key = key ∧ (∀ other ∈ s.hist.assigned vb, other.1.key = key → other.2 ≤ op.2) ∧
      s.store vb key = some ⟨op.2, op.1.content⟩ := by
  have nonempty : lastWrite key ((s.hist.assigned vb).map Prod.fst) ≠ none := by
    rw [applied.last, Ne, lastWrite_eq_none_iff]
    exact fun others => others r handed here
  rw [lastWrite, List.filter_map, List.getLast?_map, Ne, Option.map_eq_none_iff] at nonempty
  obtain ⟨op, last⟩ := Option.ne_none_iff_exists'.mp nonempty
  obtain ⟨earlier, split⟩ := List.getLast?_eq_some_iff.mp last
  have rising := (ordered.sequenced vb).rising.filter fun op => decide (op.1.key = key)
  have member : op ∈ (s.hist.assigned vb).filter fun op => op.1.key = key := List.mem_of_getLast? last
  obtain ⟨assigned, same⟩ := List.mem_filter.mp member
  refine ⟨op, assigned, by simpa using same, fun other assigned same => ?_, ?_⟩
  · have listed : other ∈ earlier ++ [op] := split ▸ List.mem_filter.mpr ⟨assigned, by simpa using same⟩
    have rising : (earlier ++ [op]).Pairwise fun a b => a.2 < b.2 := split ▸ rising
    rcases List.mem_append.mp listed with before | equal
    · exact ((List.pairwise_append.mp rising).2.2 other before op (List.mem_singleton_self op)).le
    · rw [List.mem_singleton.mp equal]
  · rw [applied.store, Store.writeDocs_apply]
    have last : ((s.hist.assigned vb).filter fun op => op.1.key = key).getLast? = some op := last
    rw [last]
    rfl

/-- As long as no thread pushes a write ahead of an earlier put of its key, a resident key whose writes
have all been applied is cached with the content of the write of the largest seqno. -/
theorem cache_agrees_with_store {maxBytes : ℕ} {store : UInt16 → Store} {seqnos : UInt16 → ℕ}
    (reached : Reach (restrict WritesInOrder State.step) (State.initial cfg maxBytes store seqnos) s) {key : DocKey}
    {p : Pinned Version} (settled : s.Settled key) (resident : s.cache.contents key = some p) :
    ∃ op ∈ s.hist.assigned key.1, op.1.key = key.2 ∧
      (∀ other ∈ s.hist.assigned key.1, other.1.key = key.2 → other.2 ≤ op.2) ∧
      s.store key.1 key.2 = some ⟨op.2, op.1.content⟩ ∧ p.doc.content = op.1.content := by
  obtain ⟨agrees, written⟩ := written_of_reach reached
  have content : (s.putsOf key).getLast?.map Request.content = some p.doc.content := by
    simpa only [latest, Option.map_none, Option.or_none] using written key p resident
  obtain ⟨r, last, _⟩ := Option.map_eq_some_iff.mp content
  obtain ⟨put, rfl⟩ : r ∈ s.hist.puts ∧ r.docKey = key := by
    simpa [putsOf] using List.mem_of_getLast? last
  obtain ⟨op, assigned, same, largest, stored⟩ :=
    agrees.applied.exists_last agrees.unrefused.sorted.ordered (settled r put rfl) rfl
  refine ⟨op, assigned, same, largest, stored, ?_⟩
  have latest : s.latest store r.docKey = some p.doc.content := by rw [State.latest, content, Option.some_or]
  have content := agrees.content_of_settled settled
  rw [latest] at content
  have stored : s.store r.docKey.1 r.docKey.2 = some ⟨op.2, op.1.content⟩ := stored
  rw [stored] at content
  exact (Option.some.inj content).symm

/-- No write is refused and no `WriteDocs` fails. -/
def Lossless (_ : State cfg) (e : Event) : Prop := e.refuses = [] ∧ e.fails = false

/-- Besides, one IO thread handles every write, and the pins of a key fit in 32 bits. -/
def SingleThread (io : ℕ) (s : State cfg) (e : Event) : Prop :=
  s.Lossless e ∧ s.FitsPins e ∧ ∀ r ∈ e.puts, r.thread = io

/-- The cache does not let go of a key while a read that is behind has a document of the key in hand. -/
def SparesReads (s : State cfg) (e : Event) : Prop :=
  ∀ i ∈ s.hist.readers, ((s.next e).reads i).Behind → s.cache.contents ((s.next e).reads i).key ≠ none →
    (s.next e).cache.contents ((s.next e).reads i).key ≠ none

/-- Whichever read has a document in hand, its `PutIfAbsent`, called now, inserts magma's version or nothing. -/
def FillsCurrent (s : State cfg) : Prop := ∀ i, (s.reads i).phase.holding = true →
  s.cache.contents (s.reads i).key = none → s.store (s.reads i).key.1 (s.reads i).key.2 = some (s.reads i).doc

instance (s : State cfg) (e : Event) : Decidable (s.Lossless e) := inferInstanceAs (Decidable (_ ∧ _))

instance (io : ℕ) (s : State cfg) (e : Event) : Decidable (SingleThread io s e) :=
  inferInstanceAs (Decidable (_ ∧ _ ∧ _))

instance (s : State cfg) (e : Event) : Decidable (s.SparesReads e) := inferInstanceAs (Decidable (∀ i ∈ _, _ → _ → _))

/-- What holds besides while reads are spared: a read that is behind finds its key resident, and so every fill was
current. -/
structure Filled (origin : UInt16 → Store) (s : State cfg) : Prop where
  agrees : s.Agrees origin
  pinning : s.Pinning
  sound : ∀ i, (s.reads i).Sound s.store
  listed : ∀ i, (s.reads i).phase ≠ .idle → i ∈ s.hist.readers
  spared : ∀ i, (s.reads i).Behind → s.cache.contents (s.reads i).key ≠ none
  fresh : s.Fresh origin
  inserted : ∀ fill ∈ s.hist.inserted, fill.current = some fill.doc

theorem Filled.fillsCurrent (filled : s.Filled origin) : s.FillsCurrent := by
  intro i holding absent
  refine filled.sound i holding (Bool.eq_false_iff.mpr fun overtaken => ?_)
  exact filled.spared i ⟨holding, overtaken⟩ absent

/-- A fill has magma's document in hand. -/
theorem Filled.store_of_filling (filled : s.Filled origin) (able : s.enabled e) :
    ∀ read ∈ s.filling e, s.store read.key.1 read.key.2 = some read.doc := by
  intro read member
  have absent := absent_of_filling member
  cases e with
  | fillInsert i =>
    simp only [filling] at member
    split at member
    · obtain rfl := List.mem_singleton.mp member
      exact filled.fillsCurrent i (mayInsert.holding (of_decide_eq_true able)) absent
    · exact (List.not_mem_nil member).elim
  | _ => exact (List.not_mem_nil member).elim

/-- Its key has no write pending, so what it inserts is what the last put wrote. -/
theorem Filled.latest_of_filling (filled : s.Filled origin) (able : s.enabled e) :
    ∀ read ∈ s.filling e, s.latest origin read.key = some read.doc.content := by
  intro read member
  have settled := filled.pinning.exact.settled_of_absent filled.agrees.inLine (absent_of_filling member)
  rw [← filled.agrees.content_of_settled settled, filled.store_of_filling able read member]
  rfl

private theorem inserted_next (filled : s.Filled origin) (able : s.enabled e) :
    ∀ fill ∈ (s.next e).hist.inserted, fill.current = some fill.doc := by
  cases e with
  | fillInsert i =>
    intro fill member
    simp only [next] at member
    split at member
    · next absent =>
      rcases List.mem_append.mp member with old | new
      · exact filled.inserted fill old
      · obtain rfl := List.mem_singleton.mp new
        exact filled.store_of_filling able (s.reads i) (by simp [filling, absent])
    · exact filled.inserted fill member
  | _ => exact filled.inserted

private theorem listed_next (listed : ∀ i, (s.reads i).phase ≠ .idle → i ∈ s.hist.readers) (able : s.enabled e) :
    ∀ i, ((s.next e).reads i).phase ≠ .idle → i ∈ (s.next e).hist.readers := by
  let Listed (i : ℕ) (read : Read) : Prop := read.phase ≠ .idle → i ∈ (s.next e).hist.readers
  cases e with
  | write vb ok =>
    intro i
    simp only [next]
    split <;> exact listed i
  | enqueueRead j key =>
    exact forall_update (P := Listed) (fun _ => List.mem_append_right _ (List.mem_singleton_self j))
      fun i busy => List.mem_append_left _ (listed i busy)
  | readTake j | fillDoor j =>
    have phase := (of_decide_eq_true able).1
    exact forall_update (P := Listed) (fun _ => listed j (by simp [phase])) listed
  | fillCheck j =>
    have phase : (s.reads j).phase = .taken := of_decide_eq_true able
    exact forall_update (P := Listed) (fun _ => listed j (by simp [phase])) listed
  | readMiss j | fillInsert j => exact forall_update (P := Listed) (fun busy => (busy rfl).elim) listed
  | _ => exact listed

/-- A write that is applied still pins its entry. -/
private theorem resident_of_overtakes (exact : s.PinsExact) (able : s.enabled e) {key : DocKey}
    (applied : s.overtakes e key = true) : s.cache.contents key ≠ none := by
  obtain ⟨vb, rfl, r, kept, rfl⟩ := exists_of_overtakes applied
  have phase : (s.writer vb).phase = .swept := of_decide_eq_true able
  have inBatch : r ∈ (s.writer vb).batch :=
    (planBatch_perm cfg.batchSort cfg.sortDupThreshold _).subset (List.mem_append_left _ kept)
  obtain rfl := (exact.flow.homes.writer vb).1 r inBatch
  have unmarked : r ∈ (s.writer r.vbucket).unmarked :=
    Writer.mem_unmarked_of_unwritten (by simpa [Writer.unwritten, phase] using inBatch)
  have held := List.count_pos_iff.mpr unmarked
  have places := exact.flow.accounts.pins r
  have pinned : r ∈ s.hist.pins := List.count_pos_iff.mp (by omega)
  exact fun absent => (exact.pending_pos pinned).ne' (Contents.pending_eq_zero absent)

/-- A read that is behind after a step finds its key resident before it. -/
private theorem Filled.resident_of_behind (filled : s.Filled origin) (able : s.enabled e) {i : ℕ}
    (behind : ((s.next e).reads i).Behind) :
    i ∈ s.hist.readers ∧ s.cache.contents ((s.next e).reads i).key ≠ none := by
  rcases holding_next able i behind.1 with ⟨before, key, _, overtaken⟩ | ⟨_, _, current, _⟩
  · refine ⟨filled.listed i fun idle => Bool.noConfusion (idle ▸ before), ?_⟩
    rw [behind.2] at overtaken
    rw [key]
    rcases Bool.or_eq_true_iff.mp overtaken.symm with already | applied
    · exact filled.spared i ⟨before, already⟩
    · exact resident_of_overtakes filled.pinning.exact able applied
  · cases current.symm.trans behind.2

theorem Filled.step {t : State cfg} (filled : s.Filled origin) (lossless : s.Lossless e) (fits : s.FitsPins e)
    (order : s.PushesInOrder e) (spares : s.SparesReads e) (taken : s.step e = some t) : t.Filled origin := by
  have agrees := filled.agrees.step lossless.1 lossless.2 order taken
  have pinning := filled.pinning.step ⟨lossless.1, fits⟩ taken
  obtain ⟨able, rfl⟩ := step_eq_some.mp taken
  refine ⟨agrees, pinning, sound_next filled.sound able, listed_next filled.listed able, fun i behind => ?_,
    filled.fresh.next filled.agrees.unrefused able (filled.latest_of_filling able), inserted_next filled able⟩
  obtain ⟨listed, resident⟩ := filled.resident_of_behind able behind
  exact spares i listed behind resident

theorem Filled.initial {maxBytes : ℕ} (cached : 0 < maxBytes) (store : UInt16 → Store) (seqnos : UInt16 → ℕ) :
    (State.initial cfg maxBytes store seqnos).Filled store where
  agrees := .initial maxBytes store seqnos
  pinning := .initial cached store seqnos
  sound _ holding := Bool.noConfusion holding
  listed _ busy := (busy rfl).elim
  spared _ behind := Bool.noConfusion behind.1
  fresh := .initial maxBytes store seqnos
  inserted _ member := (List.not_mem_nil member).elim

/-- Magma has no seqno that its vbucket has not given out, and what a read that is behind has in hand is older than
what magma holds. -/
structure Dated (s : State cfg) : Prop where
  stored : ∀ vb key v, s.store vb key = some v → v.seqno ≤ s.seqnos vb
  older : ∀ i, (s.reads i).Behind →
    ∃ v, s.store (s.reads i).key.1 (s.reads i).key.2 = some v ∧ (s.reads i).doc.seqno < v.seqno

private theorem dated_next (stored : ∀ vb key v, s.store vb key = some v → v.seqno ≤ s.seqnos vb) (e : Event)
    {vb : UInt16} {key : Bytes} {v : Version} (found : (s.next e).store vb key = some v) :
    v.seqno ≤ (s.next e).seqnos vb := by
  cases e with
  | write vb' ok =>
    by_cases same : vb = vb'
    · subst same
      simp only [next, Function.update_self]
      cases ok with
      | false => exact (stored vb key v found).trans (Nat.le_add_right ..)
      | true =>
        simp only [next, if_true, Function.update_self, Store.writeDocs_apply] at found
        rcases Option.or_eq_some_iff.mp found with new | ⟨_, old⟩
        · obtain ⟨op, last, rfl⟩ := Option.map_eq_some_iff.mp new
          exact (mem_assignSeqnos_bounds (List.mem_filter.mp (List.mem_of_getLast? last)).1).2
        · exact (stored vb key v old).trans (Nat.le_add_right ..)
    · have kept : (s.next (.write vb' ok)).store vb = s.store vb := by
        cases ok with
        | false => rfl
        | true => exact Function.update_of_ne same ..
      rw [kept] at found
      simp only [next, Function.update_of_ne same]
      exact stored vb key v found
  | _ => exact stored vb key v found

theorem Dated.step {t : State cfg} (dated : s.Dated) (sound : ∀ i, (s.reads i).Sound s.store)
    (taken : s.step e = some t) : t.Dated := by
  obtain ⟨able, rfl⟩ := step_eq_some.mp taken
  refine ⟨fun _ _ _ => dated_next dated.stored e, fun i behind => ?_⟩
  rcases holding_next able i behind.1 with ⟨before, key, doc, overtaken⟩ | ⟨_, _, current, _⟩
  · rw [key, doc]
    cases applied : s.overtakes e (s.reads i).key with
    | true =>
      obtain ⟨v, found, new⟩ := store_next_of_overtakes applied
      refine ⟨v, found, lt_of_le_of_lt ?_ new⟩
      cases was : (s.reads i).overtaken with
      | false => exact dated.stored _ _ _ (sound i before was)
      | true =>
        obtain ⟨w, found, older⟩ := dated.older i ⟨before, was⟩
        exact older.le.trans (dated.stored _ _ _ found)
    | false =>
      rw [behind.2, applied, Bool.or_false] at overtaken
      rw [store_next_of_not_overtakes applied]
      exact dated.older i ⟨before, overtaken.symm⟩
  · cases current.symm.trans behind.2

/-- An eviction that does not spare a read shows: its `PutIfAbsent` would insert the document it has in hand. -/
theorem Dated.exposed {t : State cfg} (dated : t.Dated) (evicts : ¬ s.SparesReads e) (taken : s.step e = some t) :
    ¬ t.FillsCurrent := by
  obtain ⟨-, rfl⟩ := step_eq_some.mp taken
  intro current
  refine evicts fun i _ behind _ absent => ?_
  obtain ⟨v, found, older⟩ := dated.older i behind
  cases found.symm.trans (current i behind.1 absent)
  exact lt_irrefl _ older

private theorem threads_next {io : ℕ} (single : ∀ r ∈ s.hist.puts, r.thread = io) (own : ∀ r ∈ e.puts, r.thread = io) :
    ∀ r ∈ (s.next e).hist.puts, r.thread = io := by
  rw [hist_puts_next]
  exact List.forall_mem_append.mpr ⟨single, own⟩

/-- A thread that pushes handles no write, so its chain is all it holds of the vbucket. -/
private theorem pushesInOrder_of_single {io : ℕ} (agrees : s.Agrees origin)
    (single : ∀ r ∈ s.hist.puts, r.thread = io) (able : s.enabled e) : s.PushesInOrder e := by
  have flow := agrees.unrefused.sorted.ordered.flow
  cases e with
  | push t vb =>
    obtain ⟨flushing, _⟩ := of_decide_eq_true able
    intro r staged w unpushed same _
    obtain ⟨rfl, rfl⟩ := flow.homes.vbs t vb r staged
    have thread : w.thread = r.thread :=
      (single w (flow.accounts.mem_puts_of_unpushed unpushed)).trans (single r (flow.mem_puts_of_staged staged)).symm
    have vbucket : w.vbucket = r.vbucket := congrArg Prod.fst same
    rcases (flow.accounts.unpushed w).mp unpushed with handled | chained
    · rw [thread, flushing] at handled
      exact (List.not_mem_nil handled).elim
    · rwa [thread, vbucket] at chained
  | _ => exact fun _ member => (List.not_mem_nil member).elim

/-- With a cache, a single IO thread and pins that fit, the `PutIfAbsent` of every read would at every moment of a run
insert the version that is current in magma exactly if the cache never lets go of a key of which a read that is behind
has a document in hand. In such a run every fill inserted the current version, and a resident key with no write pending
is cached with magma's content. -/
theorem fills_insert_current_iff {maxBytes : ℕ} (cached : 0 < maxBytes) {store : UInt16 → Store} {seqnos : UInt16 → ℕ}
    (recovered : ∀ vb key v, store vb key = some v → v.seqno ≤ seqnos vb) {io : ℕ} {tape : List Event}
    (run : exec (restrict (SingleThread io) State.step) (State.initial cfg maxBytes store seqnos) tape = some s) :
    (Along (restrict (SingleThread io) State.step) FillsCurrent (State.initial cfg maxBytes store seqnos) tape ↔
      exec (restrict SparesReads (restrict (SingleThread io) State.step)) (State.initial cfg maxBytes store seqnos) tape =
        some s) ∧
    (exec (restrict SparesReads (restrict (SingleThread io) State.step)) (State.initial cfg maxBytes store seqnos) tape =
        some s →
      (∀ fill ∈ s.hist.inserted, fill.current = some fill.doc) ∧
        ∀ key p, s.cache.contents key = some p → s.Settled key →
          (s.store key.1 key.2).map Version.content = some p.doc.content) := by
  let Inv (s : State cfg) : Prop := s.Filled store ∧ s.Dated ∧ ∀ r ∈ s.hist.puts, r.thread = io
  have start : Inv (State.initial cfg maxBytes store seqnos) :=
    ⟨.initial cached store seqnos, ⟨recovered, fun _ behind => Bool.noConfusion behind.1⟩,
      fun _ member => (List.not_mem_nil member).elim⟩
  have preserved : ∀ {s e t}, Inv s → s.SparesReads e → restrict (SingleThread io) State.step s e = some t → Inv t := by
    rintro s e t ⟨filled, dated, single⟩ spares taken
    obtain ⟨⟨lossless, fits, own⟩, taken⟩ := restrict_eq_some.mp taken
    have order := pushesInOrder_of_single filled.agrees single (step_eq_some.mp taken).1
    refine ⟨filled.step lossless fits order spares taken, dated.step filled.sound taken, ?_⟩
    obtain ⟨-, rfl⟩ := step_eq_some.mp taken
    exact threads_next single own
  refine ⟨along_iff_restrict (P := FillsCurrent) start preserved (fun inv => inv.1.fillsCurrent) ?_ run, fun spared => ?_⟩
  · rintro s e t ⟨filled, dated, _⟩ evicts taken
    have taken := (restrict_eq_some.mp taken).2
    exact (dated.step filled.sound taken).exposed evicts taken
  · have reached : Inv s := Reach.invariant start (fun inv taken =>
      preserved inv (restrict_eq_some.mp taken).1 (restrict_eq_some.mp taken).2) ⟨tape, spared⟩
    refine ⟨reached.1.inserted, fun key p resident settled => ?_⟩
    rw [reached.1.agrees.content_of_settled settled]
    exact reached.1.fresh key p resident

end State

/-- Two threads that push in the order of their puts leave the cache with what magma has. -/
theorem cache_agrees_two_threads :
    ∃ s, Reach (restrict State.WritesInOrder State.step) (plainStart plainConfig 1000) s ∧
      s.hist.puts = [plainSet 0 0 1, plainSet 1 1 2] ∧ s.Settled (0, [107]) ∧
      ∃ p, s.cache.contents (0, [107]) = some p ∧ ∃ op ∈ s.hist.assigned 0, op.1.key = [107] ∧
        (∀ other ∈ s.hist.assigned 0, other.1.key = [107] → other.2 ≤ op.2) ∧
        s.store 0 [107] = some ⟨op.2, op.1.content⟩ ∧ p.doc.content = op.1.content := by
  let tape : List Event := [.put (plainSet 0 0 1) none, .accept (plainSet 0 0 1), .charge 0, .push 0 0,
    .put (plainSet 1 1 2) none, .accept (plainSet 1 1 2), .charge 1, .push 1 0, .sweep 0, .write 0 true]
  obtain ⟨s, run, puts, handed, resident⟩ : ∃ s,
      exec (restrict State.WritesInOrder State.step) (plainStart plainConfig 1000) tape = some s ∧
        s.hist.puts = [plainSet 0 0 1, plainSet 1 1 2] ∧ s.hist.handed 0 = [[plainSet 0 0 1, plainSet 1 1 2]] ∧
        (s.cache.contents (0, [107])).isSome := exists_exec (by decide +kernel)
  have settled : s.Settled (0, [107]) := by
    intro r put _
    rw [puts] at put
    rw [handed]
    simpa using put
  obtain ⟨p, resident⟩ := Option.isSome_iff_exists.mp resident
  exact ⟨s, ⟨tape, run⟩, puts, settled, p, resident, State.cache_agrees_with_store ⟨tape, run⟩ settled resident⟩

/-- Thread 0 puts a write of `k` and stages it, thread 1 puts another one and pushes it first. Both are
applied; magma is left with the first put, and the cache with the second. -/
theorem cache_disagrees_with_store : ∃ s, Reach (restrict State.Quiet State.step) (plainStart plainConfig 1000) s ∧
    s.hist.puts = [plainSet 0 0 1, plainSet 1 1 2] ∧ s.hist.marked = [plainSet 1 1 2, plainSet 0 0 1] ∧
      s.hist.assigned 0 = [(plainSet 1 1 2, 1), (plainSet 0 0 1, 2)] ∧
      s.store 0 [107] = some ⟨2, (plainSet 0 0 1).content⟩ ∧
      s.cache.contents (0, [107]) = some ⟨⟨2, (plainSet 1 1 2).content⟩, 0⟩ :=
  exists_reach [.put (plainSet 0 0 1) none, .accept (plainSet 0 0 1), .put (plainSet 1 1 2) none,
    .accept (plainSet 1 1 2), .charge 1, .push 1 0, .flushed 1, .charge 0, .push 0 0, .flushed 0, .sweep 0,
    .write 0 true, .mark 0 (plainSet 1 1 2) 1, .mark 0 (plainSet 0 0 1) 2, .settle 0] (by decide +kernel)

/-- A write of thread 0, alone, from its put to its mark. -/
def wholeWrite (r : Request) (seqno : ℕ) : List Event :=
  [.put r none, .accept r, .charge 0, .push 0 0, .flushed 0, .sweep 0, .write 0 true, .mark 0 r seqno]

/-- A read of `k` from its miss to the moment it has the first version in hand. -/
def missRead : List Event := [.enqueueRead 0 (0, [107]), .readTake 0 ⟨1, (plainSet 0 0 1).content⟩]

/-- A write is applied and evicted, a read takes it, and its fill inserts it with no write in between. -/
theorem fills_current_after_eviction : ∃ s tape,
    exec (restrict State.SparesReads (restrict (State.SingleThread 0) State.step)) (plainStart plainConfig 1) tape =
        some s ∧
      s.hist.inserted.map Insertion.key = [(0, [107])] ∧ (∀ fill ∈ s.hist.inserted, fill.current = some fill.doc) ∧
      Along (restrict (State.SingleThread 0) State.step) State.FillsCurrent (plainStart plainConfig 1) tape := by
  let tape : List Event := wholeWrite (plainSet 0 0 1) 1 ++ [.trim 0 (0, [107]), .settle 0] ++ missRead ++
    [.setBudget 0 1000, .fillCheck 0, .fillInsert 0]
  obtain ⟨s, run, inserted⟩ : ∃ s,
      exec (restrict State.SparesReads (restrict (State.SingleThread 0) State.step)) (plainStart plainConfig 1) tape =
        some s ∧ s.hist.inserted.map Insertion.key = [(0, [107])] := exists_exec (by decide +kernel)
  obtain ⟨iff, current⟩ := State.fills_insert_current_iff (by decide) (fun _ _ _ found => by cases found)
    (exec_of_restrict run)
  exact ⟨s, tape, run, inserted, (current run).1, iff.mpr run⟩

/-- One thread, nothing refused, nothing failed. A read takes the first version of `k`; a second write is put,
applied, unpinned and evicted; then the fill inserts the first version. It stays in the cache with no write
pending and the second version in magma. -/
theorem stale_fill : ∃ s, Reach (restrict State.Lossless State.step) (plainStart plainConfig 1) s ∧
    s.hist.puts = [plainSet 0 0 1, plainSet 1 0 2] ∧ s.hist.marked = [plainSet 0 0 1, plainSet 1 0 2] ∧
      s.hist.inserted = [⟨(0, [107]), ⟨1, (plainSet 0 0 1).content⟩, some ⟨2, (plainSet 1 0 2).content⟩⟩] ∧
      s.store 0 [107] = some ⟨2, (plainSet 1 0 2).content⟩ ∧
      s.cache.contents (0, [107]) = some ⟨⟨1, (plainSet 0 0 1).content⟩, 0⟩ :=
  exists_reach (wholeWrite (plainSet 0 0 1) 1 ++ [.trim 0 (0, [107]), .settle 0] ++ missRead ++
    wholeWrite (plainSet 1 0 2) 2 ++ [.trim 0 (0, [107]), .settle 0, .setBudget 0 1000, .fillCheck 0, .fillInsert 0])
    (by decide +kernel)

end FluxKV.Engine
