import FluxKV.Cache.SeqHistory
import FluxKV.Engine.Versions

/-! # Whether a seqno hint can be a delete

With the seqno index on, `MarkPersisted` notes the seqno of the write it acknowledges, and marks it deleted if the
entry the key has by then is a tombstone. A fill notes the seqno of a live document, and so does the warmup, which
knows the deleted bit from magma. Here the write path runs together with the index. A hint is the seqno of a SET as
long as the acknowledgement of a DELETE still finds its tombstone.
-/

namespace FluxKV.Engine

open Protocol Cache Counting Machine

namespace State

variable {cfg : Config} {s : State cfg} {origin : UInt16 → Store} {last : UInt16 → ℕ} {key : DocKey}

/-- The key is resident as a tombstone. -/
def tombstone (s : State cfg) (key : DocKey) : Bool := (s.hit key).any fun doc => doc.content.deleted

/-- The seqno belongs to a live version of the key. -/
def LiveAt (origin : UInt16 → Store) (s : State cfg) (key : DocKey) (seqno : ℕ) : Prop :=
  (∃ doc, origin key.1 key.2 = some doc ∧ doc.seqno = seqno) ∨
    ∃ r, (r, seqno) ∈ s.hist.assigned key.1 ∧ r.key = key.2 ∧ r.opcode = .set

theorem LiveAt.next {seqno : ℕ} (live : s.LiveAt origin key seqno) (e : Event) :
    (s.next e).LiveAt origin key seqno := by
  rcases live with initial | ⟨r, assigned, rest⟩
  · exact .inl initial
  · exact .inr ⟨r, assigned_subset_next e _ assigned, rest⟩

/-- A sourced document that is not a tombstone was set. -/
theorem Sourced.liveAt {doc : Version} (sourced : s.Sourced origin key doc) (live : doc.content.deleted = false) :
    s.LiveAt origin key doc.seqno := by
  rcases sourced with ⟨v, initial, same, _⟩ | ⟨r, assigned, home, bytes⟩
  · exact .inl ⟨v, initial, same⟩
  · refine .inr ⟨r, assigned, home, ?_⟩
    have undeleted : r.content.deleted = false := by
      rw [← live]
      exact congrArg (fun served => served.2.2.2) bytes
    rcases mutation : r.mutation with _ | _
    · rw [Request.opcode, mutation]
    · rw [Request.content, mutation] at undeleted
      cases undeleted

end State

/-- The write path and the seqno index of its cache. -/
structure Hinted (cfg : Config) (L : Type*) where
  server : State cfg
  index : SeqIndex L

/-- A step of the write path, or a call that reaches the index alone: the note of `PutIfAbsent`, which comes before
its shared section, the warmup, and what a read by seqno does. -/
inductive HintEvent where
  | server (e : Event)
  | fill (i : ℕ)
  | warmup (key : DocKey) (doc : Version) (valuePtr : UInt64)
  | noteValuePtr (key : DocKey) (seqno valuePtr : UInt64)
  | seqnoHint (key : DocKey)
deriving DecidableEq, Repr

namespace Hinted

variable {cfg : Config} {L : Type*} (F : F14 L)

def enabled (x : Hinted cfg L) : HintEvent → Bool
  | .server e => x.server.enabled e
  | .fill i => decide ((x.server.reads i).phase = .taken)
  | .warmup key doc _ => decide (x.server.store key.1 key.2 = some doc)
  | .noteValuePtr .. | .seqnoHint _ => true

/-- What an event asks of the index. A `MarkPersisted` without a seqno does not reach it. -/
def call (x : Hinted cfg L) : HintEvent → Option SeqCall
  | .server (.mark vb r seqno) => if (x.server.writer vb).ok then
      some (.markPersisted (vb, r.key) (.ofNat seqno) (x.server.tombstone (vb, r.key)))
    else none
  | .server _ => none
  | .fill i => some (.putIfAbsent (x.server.reads i).key (.ofNat (x.server.reads i).doc.seqno))
  | .warmup key doc valuePtr => some (.noteSeqno key (.ofNat doc.seqno) doc.content.deleted valuePtr)
  | .noteValuePtr key seqno valuePtr => some (.noteValuePtr key seqno valuePtr)
  | .seqnoHint key => some (.seqnoHint key)

def next (x : Hinted cfg L) (e : HintEvent) : Hinted cfg L where
  server := match e with
    | .server e => x.server.next e
    | _ => x.server
  index := (x.call e).elim x.index (x.index.next F cfg.hash cfg.shardMask)

def step (x : Hinted cfg L) (e : HintEvent) : Option (Hinted cfg L) := if x.enabled e then some (x.next F e) else none

/-- A fresh server with an empty index below the cap. -/
def start (server : State cfg) (seqCap : ℕ) : Hinted cfg L := ⟨server, .start F cfg.shardMask seqCap⟩

/-- The keys and seqnos an event notes. -/
def notes (x : Hinted cfg L) : HintEvent → List (DocKey × ℕ)
  | .server (.mark vb r seqno) => if (x.server.writer vb).ok then [((vb, r.key), seqno)] else []
  | .server _ => []
  | .fill i => [((x.server.reads i).key, (x.server.reads i).doc.seqno)]
  | .warmup key doc _ => [(key, doc.seqno)]
  | .noteValuePtr .. | .seqnoHint _ => []

/-- The write an event acknowledges with its seqno, and its vbucket. -/
def acknowledged (x : Hinted cfg L) : HintEvent → List (UInt16 × Request)
  | .server e => x.server.acknowledged e
  | _ => []

/-- What is noted are seqnos of `keys` that leave the flag bits free, and the acknowledgement of a DELETE finds its
key resident as a tombstone. -/
def Truthful (keys : List DocKey) (x : Hinted cfg L) (e : HintEvent) : Prop :=
  (∀ note ∈ x.notes e, note.1 ∈ keys ∧ note.2 < 2 ^ 62) ∧
    ∀ ack ∈ x.acknowledged e, ack.2.opcode = .delete → x.server.tombstone (ack.1, ack.2.key) = true

instance (keys : List DocKey) (x : Hinted cfg L) (e : HintEvent) : Decidable (x.Truthful keys e) :=
  inferInstanceAs (Decidable ((∀ note ∈ _, _) ∧ ∀ ack ∈ _, _))

variable {F} {x y : Hinted cfg L} {e : HintEvent} {keys : List DocKey} {origin : UInt16 → Store} {last : UInt16 → ℕ}

theorem step_eq_some : x.step F e = some y ↔ x.enabled e ∧ y = x.next F e :=
  ite_some_eq_some.trans (and_congr_right fun _ => eq_comm)

/-- The index holds a live seqno only where there is a live version, and notes only what was assigned. -/
structure Honest (F : F14 L) (keys : List DocKey) (origin : UInt16 → Store) (last : UInt16 → ℕ) (x : Hinted cfg L) :
    Prop where
  versioned : x.server.Versioned origin last
  taken : ∀ i, (x.server.reads i).phase.holding = true → (x.server.reads i).doc.content.deleted = false
  noted : ∀ n ∈ x.index.noted, n.warmup = false →
    n.key ∈ keys ∧ ∃ r, (r, n.seqno.toNat) ∈ x.server.hist.assigned n.key.1 ∧ r.key = n.key.2
  live : ∀ key ∈ keys, ∀ v, x.index.find F cfg.hash cfg.shardMask key = some v → v.deleted = false →
    x.server.LiveAt origin key v.current.toNat

theorem Honest.start (maxBytes : ℕ) (store : UInt16 → Store) (seqnos : UInt16 → ℕ) (seqCap : ℕ) :
    (start F (State.initial cfg maxBytes store seqnos) seqCap).Honest F keys store seqnos where
  versioned := .initial maxBytes store seqnos
  taken _ holding := Bool.noConfusion holding
  noted _ member := (List.not_mem_nil member).elim
  live key _ v held := by
    have member : cfg.hash key ∈ F.keys F.empty := ((SeqPart.lookup_eq_some F).mp held).1
    rw [F.keys_empty] at member
    exact (List.not_mem_nil member).elim

theorem toNat_ofNat_of_low {seqno : ℕ} (low : seqno < 2 ^ 62) : (UInt64.ofNat seqno).toNat = seqno :=
  UInt64.toNat_ofNat_of_lt' (low.trans (by decide))

/-- What a persisted write is noted with was assigned to it, and is live only if it was a SET. -/
private theorem mark_spec (honest : x.Honest F keys origin last) {vb : UInt16} {r : Request} {seqno : ℕ}
    (able : x.enabled (.server (.mark vb r seqno))) (truthful : x.Truthful keys (.server (.mark vb r seqno)))
    {call : SeqCall} (calls : x.call (.server (.mark vb r seqno)) = some call) :
    SeqIndex.Low call ∧ ∀ key seqno deleted, call.note = some (key, seqno, deleted) →
      key ∈ keys ∧ (deleted = false → x.server.LiveAt origin key seqno.toNat) := by
  obtain ⟨known, tombs⟩ := truthful
  rcases ok : (x.server.writer vb).ok with _ | _
  · simp [Hinted.call, ok] at calls
  · simp only [Hinted.call, ok, if_true, Option.some.injEq] at calls
    subst calls
    obtain ⟨listed, low⟩ := known ((vb, r.key), seqno) (by simp [notes, ok])
    have word := toNat_ofNat_of_low low
    refine ⟨by rwa [SeqIndex.Low, word], ?_⟩
    rintro key n deleted ⟨⟩
    refine ⟨listed, fun live => .inr ⟨r, ?_, rfl, ?_⟩⟩
    · rw [word]
      exact honest.versioned.assigned_of_mark able
    · rcases mutation : r.mutation with _ | _
      · rw [Request.opcode, mutation]
      · have tomb := tombs (vb, r) (by simp [acknowledged, State.acknowledged, ok])
          (by rw [Request.opcode, mutation])
        cases live.symm.trans tomb

/-- Under the condition, a call notes seqnos of `keys`, and live ones only of live versions. -/
private theorem call_spec (honest : x.Honest F keys origin last) (able : x.enabled e)
    (truthful : x.Truthful keys e) {call : SeqCall} (calls : x.call e = some call) :
    SeqIndex.Low call ∧ ∀ key seqno deleted, call.note = some (key, seqno, deleted) →
      key ∈ keys ∧ (deleted = false → x.server.LiveAt origin key seqno.toNat) := by
  cases e with
  | server e =>
    cases e with
    | mark vb r seqno => exact mark_spec honest able truthful calls
    | _ => cases calls
  | fill i =>
    cases calls
    obtain ⟨listed, low⟩ := truthful.1 _ (List.mem_singleton_self _)
    have word := toNat_ofNat_of_low low
    have phase : (x.server.reads i).phase = .taken := of_decide_eq_true able
    have holding : (x.server.reads i).phase.holding = true := by rw [phase]; rfl
    refine ⟨by rwa [SeqIndex.Low, word], ?_⟩
    rintro key n deleted ⟨⟩
    refine ⟨listed, fun _ => ?_⟩
    rw [word]
    exact (honest.versioned.taken i holding).liveAt (honest.taken i holding)
  | warmup key doc ptr =>
    cases calls
    obtain ⟨listed, low⟩ := truthful.1 _ (List.mem_singleton_self _)
    have word := toNat_ofNat_of_low low
    refine ⟨by rwa [SeqIndex.Low, word], ?_⟩
    rintro key n deleted ⟨⟩
    refine ⟨listed, fun live => ?_⟩
    rw [word]
    exact (honest.versioned.stored _ _ doc (of_decide_eq_true able)).liveAt live
  | _ =>
    cases calls
    exact ⟨trivial, by rintro _ _ _ ⟨⟩⟩

/-- The only event that calls `MarkPersisted`. -/
private theorem mark_of_call {key : DocKey} {seqno : UInt64} {deleted : Bool}
    (calls : x.call e = some (.markPersisted key seqno deleted)) : ∃ vb r n, e = .server (.mark vb r n) ∧
      (x.server.writer vb).ok = true ∧ key = (vb, r.key) ∧ seqno = .ofNat n := by
  cases e with
  | server e =>
    cases e with
    | mark vb r n =>
      rcases ok : (x.server.writer vb).ok with _ | _
      · simp [Hinted.call, ok] at calls
      · simp only [Hinted.call, ok, if_true, Option.some.injEq, SeqCall.markPersisted.injEq] at calls
        exact ⟨vb, r, n, rfl, ok, calls.1.symm, calls.2.1.symm⟩
    | _ => cases calls
  | _ => cases calls

theorem liveAt_next (e : HintEvent) {key : DocKey} {seqno : ℕ} (live : x.server.LiveAt origin key seqno) :
    (x.next F e).server.LiveAt origin key seqno := by
  cases e with
  | server e => exact live.next e
  | _ => exact live

theorem assigned_next (e : HintEvent) (vb : UInt16) :
    x.server.hist.assigned vb ⊆ (x.next F e).server.hist.assigned vb := by
  cases e with
  | server e => exact State.assigned_subset_next e vb
  | _ => exact List.Subset.refl _

theorem index_next (x : Hinted cfg L) (e : HintEvent) :
    (x.next F e).index = (x.call e).elim x.index (x.index.next F cfg.hash cfg.shardMask) := rfl

private theorem noted_next (honest : x.Honest F keys origin last) (able : x.enabled e)
    (truthful : x.Truthful keys e) : ∀ n ∈ (x.next F e).index.noted, n.warmup = false →
      n.key ∈ keys ∧ ∃ r, (r, n.seqno.toNat) ∈ (x.next F e).server.hist.assigned n.key.1 ∧ r.key = n.key.2 := by
  have old : ∀ n ∈ x.index.noted, n.warmup = false →
      n.key ∈ keys ∧ ∃ r, (r, n.seqno.toNat) ∈ (x.next F e).server.hist.assigned n.key.1 ∧ r.key = n.key.2 := by
    intro n member written
    obtain ⟨listed, r, assigned, home⟩ := honest.noted n member written
    exact ⟨listed, r, assigned_next e _ assigned, home⟩
  intro n member written
  rw [index_next] at member
  rcases calls : x.call e with _ | call
  · rw [calls] at member
    exact old n member written
  · rw [calls] at member
    rcases SeqIndex.noted_next member with before | ⟨deleted, rfl⟩ | warm
    · exact old n before written
    · obtain ⟨vb, r, seqno, rfl, ok, key, same⟩ := mark_of_call calls
      obtain ⟨listed, low⟩ := truthful.1 ((vb, r.key), seqno) (by simp [notes, ok])
      rw [key, same, toNat_ofNat_of_low low]
      exact ⟨listed, r, assigned_next _ _ (honest.versioned.assigned_of_mark able), rfl⟩
    · cases written.symm.trans warm

/-- What the index holds of a key was noted for it: no other of the keys has its hash. -/
private theorem live_next (apart : ∀ a ∈ keys, ∀ b ∈ keys, cfg.hash a = cfg.hash b → a = b)
    (honest : x.Honest F keys origin last) (able : x.enabled e) (truthful : x.Truthful keys e) :
    ∀ key ∈ keys, ∀ v, (x.next F e).index.find F cfg.hash cfg.shardMask key = some v → v.deleted = false →
      (x.next F e).server.LiveAt origin key v.current.toNat := by
  intro key listed v held live
  apply liveAt_next
  rw [index_next] at held
  rcases calls : x.call e with _ | call
  · rw [calls] at held
    exact honest.live key listed v held live
  · rw [calls] at held
    obtain ⟨low, spec⟩ := call_spec honest able truthful calls
    rcases SeqIndex.find_next low held with ⟨noted, note, same⟩ | ⟨old, before, current, deleted⟩
    · obtain ⟨known, alive⟩ := spec noted v.current v.deleted note
      rw [← apart noted known key listed same]
      exact alive live
    · rw [current]
      exact honest.live key listed old before (deleted ▸ live)

theorem Honest.step (apart : ∀ a ∈ keys, ∀ b ∈ keys, cfg.hash a = cfg.hash b → a = b)
    (honest : x.Honest F keys origin last) (truthful : x.Truthful keys e) (taken : x.step F e = some y) :
    y.Honest F keys origin last := by
  obtain ⟨able, rfl⟩ := step_eq_some.mp taken
  have noted := noted_next honest able truthful
  have live := live_next apart honest able truthful
  cases e with
  | server e =>
    refine ⟨honest.versioned.step (State.step_eq_some.mpr ⟨able, rfl⟩), fun i holding => ?_, noted, live⟩
    rcases State.holding_next able i holding with ⟨before, _, doc, _⟩ | ⟨_, undeleted, _⟩
    · exact doc ▸ honest.taken i before
    · exact undeleted
  | _ => exact ⟨honest.versioned, honest.taken, noted, live⟩

/-- As long as no two of the keys in use have one hash, seqnos leave the flag bits free and the acknowledgement of a
DELETE finds its tombstone, a hint that was noted for its key by `MarkPersisted` is the seqno of a SET of the key. -/
theorem hint_is_never_a_delete {maxBytes seqCap : ℕ} {store : UInt16 → Store} {seqnos : UInt16 → ℕ}
    (recovered : ∀ vb key doc, store vb key = some doc → doc.seqno ≤ seqnos vb)
    (apart : ∀ a ∈ keys, ∀ b ∈ keys, cfg.hash a = cfg.hash b → a = b)
    (reached : Reach (restrict (Truthful keys) (step F)) (start F (.initial cfg maxBytes store seqnos) seqCap) x)
    {key : DocKey} (noted : ⟨key, x.index.hint F cfg.hash cfg.shardMask key, false⟩ ∈ x.index.noted)
    (given : x.index.hint F cfg.hash cfg.shardMask key ≠ 0) :
    ∃ r, (r, (x.index.hint F cfg.hash cfg.shardMask key).toNat) ∈ x.server.hist.assigned key.1 ∧ r.key = key.2 ∧
      r.opcode = .set ∧
      ∀ w, (w, (x.index.hint F cfg.hash cfg.shardMask key).toNat) ∈ x.server.hist.assigned key.1 → w = r := by
  have honest : x.Honest F keys store seqnos := by
    refine reached.invariant (P := fun x => x.Honest F keys store seqnos) (.start maxBytes store seqnos seqCap) ?_
    intro s e t honest taken
    obtain ⟨truthful, taken⟩ := restrict_eq_some.mp taken
    exact honest.step apart truthful taken
  obtain ⟨listed, r, assigned, home⟩ := honest.noted _ noted rfl
  obtain ⟨v, held, live, same⟩ := SeqShard.lookup_of_hint given
  have hint : x.index.hint F cfg.hash cfg.shardMask key = v.current := same
  rw [hint] at assigned ⊢
  have unique := fun w again => honest.versioned.assigned_unique (a := w) again assigned
  rcases honest.live key listed v held live with ⟨doc, initial, number⟩ | ⟨w, again, _, set⟩
  · have bounded := recovered _ _ _ initial
    have above := honest.versioned.recent _ _ assigned
    rw [number] at bounded
    exact absurd above (not_lt.mpr bounded)
  · exact ⟨r, assigned, home, unique w again ▸ set, unique⟩

end Hinted

/-- A DELETE of `k`, vbucket 0. -/
def plainDelete (id thread : ℕ) : Request := ⟨id, thread, 0, [107], .delete, none⟩

/-- A DELETE of `k` acknowledged while its tombstone is cached, then a SET: the hint is the seqno of the SET. -/
theorem hint_is_never_a_delete_in_turn : ∃ x : Hinted plainConfig (List UInt64),
    x.server.hist.assigned 0 = [(plainDelete 0 0, 1), (plainSet 1 0 2, 2)] ∧
      x.index.hint .ofList plainConfig.hash plainConfig.shardMask (0, [107]) = 2 ∧
      ∃ r, (r, (x.index.hint .ofList plainConfig.hash plainConfig.shardMask (0, [107])).toNat) ∈
        x.server.hist.assigned 0 ∧ r.key = [107] ∧ r.opcode = .set ∧
        ∀ w, (w, (x.index.hint .ofList plainConfig.hash plainConfig.shardMask (0, [107])).toNat) ∈
          x.server.hist.assigned 0 → w = r := by
  let tape : List HintEvent := (wholeWrite (plainDelete 0 0) 1 ++ .settle 0 :: wholeWrite (plainSet 1 0 2) 2).map .server
  obtain ⟨x, reached, assigned, noted, hint⟩ : ∃ x, Reach (restrict (Hinted.Truthful [(0, [107])]) (Hinted.step .ofList))
      (.start .ofList (plainStart plainConfig 1000) 1000) x ∧
        x.server.hist.assigned 0 = [(plainDelete 0 0, 1), (plainSet 1 0 2, 2)] ∧
        x.index.noted = [⟨(0, [107]), 2, false⟩, ⟨(0, [107]), 1, false⟩] ∧
        x.index.hint .ofList plainConfig.hash plainConfig.shardMask (0, [107]) = 2 :=
    exists_reach tape (by decide +kernel)
  refine ⟨x, assigned, hint, Hinted.hint_is_never_a_delete (fun _ _ _ found => by cases found) (by decide) reached ?_ ?_⟩
  · rw [noted, hint]
    exact List.mem_cons_self
  · rw [hint]
    decide

/-- A DELETE of `k` is applied after a SET of `k` has replaced its tombstone in the cache. Its acknowledgement notes a
live seqno, and the hint for `k` is the DELETE. -/
theorem hint_of_delete : ∃ x : Hinted plainConfig (List UInt64),
    Reach (Hinted.step .ofList) (.start .ofList (plainStart plainConfig 1000) 1000) x ∧
      ⟨(0, [107]), 1, false⟩ ∈ x.index.noted ∧ x.server.hist.assigned 0 = [(plainDelete 0 0, 1)] ∧
      x.index.hint .ofList plainConfig.hash plainConfig.shardMask (0, [107]) = 1 :=
  exists_reach (List.map .server [.put (plainDelete 0 0) none, .accept (plainDelete 0 0), .charge 0, .push 0 0,
    .flushed 0, .sweep 0, .put (plainSet 1 0 2) none, .write 0 true, .mark 0 (plainDelete 0 0) 1]) (by decide +kernel)

end FluxKV.Engine
