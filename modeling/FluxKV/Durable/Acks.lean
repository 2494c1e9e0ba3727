import FluxKV.Durable.Machine
import FluxKV.ToMathlib.Counting
import Mathlib.Data.List.Pairwise
import Mathlib.Data.List.TakeWhile

/-! # Durable acknowledgements

A written request is in one place at a time: in its writer's hands, parked on a loop, queued for a
completion thread, posted or answered. So it is answered at most once. What a place holds is stamped with
the position of its batch, and nothing answers it with Success before the watermark has passed that
position.
-/

namespace FluxKV.Durable

open Engine Machine Counting

variable {cfg : Config} {s t : State} {e : Event}

namespace Loop

variable {l l' : Loop} {r : Request} {durable i kept done : ℕ}

theorem reqs_perm_of_settled (before : l.pc.settled = true) (after : l'.pc.settled = true)
    (turned : (l'.parkedHead ++ l'.parkedLocal).Perm (l.parkedHead ++ l.parkedLocal)) : l'.reqs.Perm l.reqs := by
  rw [reqs_of_settled before, reqs_of_settled after]
  exact turned

/-- A drain takes over the chain. -/
theorem reqs_take (settled : l.pc.settled = true) :
    (Loop.reqs { l with parkedLocal := l.parkedLocal ++ l.parkedHead, parkedHead := [], pc := .taken }).Perm l.reqs := by
  have turned : (l.parkedLocal ++ l.parkedHead).Perm (l.parkedHead ++ l.parkedLocal) := List.perm_append_comm
  exact reqs_perm_of_settled settled rfl turned

theorem reqs_load (settled : l.pc.settled = true) : Loop.reqs { l with pc := .answering durable 0 0 0 } = l.reqs := by
  rw [reqs_of_settled settled]
  rfl

theorem reqs_of_answering (running : l.pc = .answering durable i kept done) (short : i < l.parkedLocal.length) :
    l.reqs = l.parkedHead ++ (l.parkedLocal.take kept ++ l.parkedLocal[i] :: l.parkedLocal.drop (i + 1)) := by
  simp only [reqs, waiting, running, List.drop_eq_getElem_cons short]

/-- A drain answers the request it looks at. -/
theorem reqs_answer (running : l.pc = .answering durable i kept done) (current : l.parkedLocal[i]? = some r) :
    (Loop.reqs { l with pc := .answering durable (i + 1) kept (done + 1) } ++ [r]).Perm l.reqs := by
  obtain ⟨short, current⟩ := List.getElem?_eq_some_iff.mp current
  rw [reqs_of_answering running short, current]
  simp only [reqs, waiting, List.perm_iff_count, List.count_append, List.count_cons, List.count_nil]
  intro x
  omega

/-- A drain keeps the request it looks at. -/
theorem reqs_keep (running : l.pc = .answering durable i kept done) (compact : kept ≤ i)
    (current : l.parkedLocal[i]? = some r) :
    Loop.reqs { l with parkedLocal := l.parkedLocal.set kept r, pc := .answering durable (i + 1) (kept + 1) done } =
      l.reqs := by
  obtain ⟨short, current⟩ := List.getElem?_eq_some_iff.mp current
  rw [reqs_of_answering running short, current]
  simp only [reqs, waiting, List.drop_set_of_lt (Nat.lt_succ_of_le compact), List.take_add_one,
    List.getElem?_set_self (Nat.lt_of_le_of_lt compact short), List.take_set_of_le (Nat.le_refl kept)]
  simp

/-- A drain that has looked at all of them shortens the vector. -/
theorem reqs_end (running : l.pc = .answering durable i kept done) (all : i = l.parkedLocal.length) :
    Loop.reqs { l with
      parkedLocal := l.parkedLocal.take kept
      pc := if done = 0 then .idle else .finishing done } = l.reqs := by
  rw [reqs_of_settled (by dsimp only; split <;> rfl)]
  simp only [reqs, waiting, running, all, List.drop_length, List.append_nil]

end Loop

namespace State

/-- Every written request is in one place. -/
structure Held (s : State) : Prop where
  distinct : Distinct s.place
  known : ∀ p, ∀ r ∈ s.place p, r ∈ s.accepted

theorem watermark_le_next (able : s.enabled e) : s.watermark ≤ (s.next cfg e).watermark := by
  cases e with
  | advance lsn => exact of_decide_eq_true able
  | _ => exact Nat.le_refl _

theorem ordered_next (ordered : ∀ t, (s.loops t).Ordered s.watermark) (able : s.enabled e) :
    ∀ t, ((s.next cfg e).loops t).Ordered (s.next cfg e).watermark := by
  have put : ∀ {t : ℕ} {l : Loop}, l.Ordered s.watermark →
      ∀ t', (Function.update s.loops t l t').Ordered s.watermark :=
    fun here => forall_update (P := fun _ l => Loop.Ordered s.watermark l) here ordered
  have still : ∀ {l : Loop}, l.pc.settled = true → l.Ordered s.watermark := by
    intro l settled _ _ _ _ answering
    rw [answering] at settled
    cases settled
  cases e with
  | casPush | addCount | register | wakeExchange | wakePost => exact put (ordered _)
  | drainEnter t | drainClear t | drainTake t | drainSub t done => exact put (still rfl)
  | drainCheck | drainEnd => exact put (still (by dsimp only; split <;> rfl))
  | drainLoad t =>
    refine put fun answering => ?_
    cases answering
    exact ⟨Nat.le_refl 0, Nat.le_refl _⟩
  | drainAnswer t r durable i kept done =>
    obtain ⟨before, reached⟩ := ordered t (of_decide_eq_true able).1
    refine put fun answering => ?_
    cases answering
    exact ⟨Nat.le_succ_of_le before, reached⟩
  | drainKeep t r durable i kept done =>
    obtain ⟨before, reached⟩ := ordered t (of_decide_eq_true able).1
    refine put fun answering => ?_
    cases answering
    exact ⟨Nat.succ_le_succ before, reached⟩
  | advance lsn =>
    intro t durable i kept done answering
    obtain ⟨before, reached⟩ := ordered t answering
    exact ⟨before, Nat.le_trans reached (of_decide_eq_true able)⟩
  | _ => exact ordered

theorem Held.same (held : s.Held) (places : t.place = s.place) (accepted : t.accepted = s.accepted) : t.Held :=
  ⟨places ▸ held.distinct, by rw [places, accepted]; exact held.known⟩

variable {p q : Place} {a b : List Request}

theorem Held.perm (held : s.Held) (turned : a.Perm (s.place p)) (places : t.place = Function.update s.place p a)
    (accepted : t.accepted = s.accepted) : t.Held where
  distinct := places ▸ held.distinct.perm turned
  known := by
    rw [places, accepted, Function.forall_update_iff s.place fun _ l => ∀ r ∈ l, r ∈ s.accepted]
    exact ⟨fun r member => held.known p r (turned.subset member), fun p _ => held.known p⟩

theorem Held.move (held : s.Held) (apart : q ≠ p) (kept : (a ++ b).Perm (s.place p ++ s.place q))
    (places : t.place = Function.update (Function.update s.place p a) q b) (accepted : t.accepted = s.accepted) :
    t.Held where
  distinct := places ▸ held.distinct.move apart kept
  known := by
    have source : ∀ r ∈ a ++ b, r ∈ s.accepted := by
      intro r member
      rcases List.mem_append.mp (kept.subset member) with before | before
      · exact held.known p r before
      · exact held.known q r before
    rw [places, accepted, Function.forall_update_iff _ fun _ l => ∀ r ∈ l, r ∈ s.accepted]
    refine ⟨fun r member => source r (List.mem_append_right a member), fun i _ => ?_⟩
    revert i
    rw [Function.forall_update_iff s.place fun i l => i ≠ q → ∀ r ∈ l, r ∈ s.accepted]
    exact ⟨fun _ r member => source r (List.mem_append_left b member), fun i _ _ => held.known i⟩

theorem Held.setWriter {w : ℕ} {pc : WriterPc} (held : s.Held) (turned : pc.reqs.Perm (s.writers w).reqs) :
    (s.setWriter w pc).Held :=
  held.perm turned (place_setWriter s w pc) rfl

/-- A writer passes on from where it stands, with the requests it has. -/
theorem Held.writer {w : ℕ} {here pc : WriterPc} (held : s.Held) (stands : s.writers w = here)
    (turned : pc.reqs.Perm here.reqs) : (s.setWriter w pc).Held :=
  held.setWriter (stands ▸ turned)

theorem Held.setLoop {t : ℕ} {l : Loop} (held : s.Held) (turned : l.reqs.Perm (s.loops t).reqs) :
    (s.setLoop t l).Held :=
  held.perm turned (place_setLoop s t l) rfl

theorem Held.setShard {shard : ℕ} {c : Completion} (held : s.Held) (turned : c.reqs.Perm (s.shards shard).reqs) :
    (s.setShard shard c).Held :=
  held.perm turned (place_setShard s shard c) rfl

theorem Held.await {w shard : ℕ} {pc : WriterPc} {p : PendingDurable} (held : s.Held)
    (kept : (pc.reqs ++ p.reqs).Perm (s.writers w).reqs) : ((s.setWriter w pc).await shard p).Held := by
  refine held.move (p := .writer w) (q := .shard shard) Place.noConfusion ?_
    ((place_setShard _ shard _).trans (by rw [place_setWriter])) rfl
  have queued : (Completion.reqs { s.shards shard with durableQueue := (s.shards shard).durableQueue ++ [p] }).Perm
      (p.reqs ++ (s.shards shard).reqs) := by
    simp only [Completion.reqs, List.flatMap_append, List.flatMap_singleton]
    exact (List.perm_append_comm.append_right _).trans (List.append_assoc .. ▸ .refl _)
  exact (queued.append_left _).trans ((List.append_assoc .. ▸ .refl _ : List.Perm _ _).trans (kept.append_right _))

theorem Held.post {p : Place} {a b : List Request} (held : s.Held) (apart : p ≠ .mail)
    (kept : (a ++ b).Perm (s.place p)) {mid : State} (places : mid.place = Function.update s.place p a)
    (accepted : mid.accepted = s.accepted) (mail : mid.mail = s.mail) : (mid.post b).Held := by
  refine held.move apart.symm ?_ ((place_post mid b).trans (by rw [places, mail])) accepted
  exact (List.perm_append_comm.append_left a).trans
    ((List.append_assoc .. ▸ .refl _ : List.Perm _ _).trans (kept.append_right _))

end State

theorem runs_flatMap (batch : List Request) : (runs batch).flatMap Prod.snd = batch := by
  induction batch with
  | nil => rfl
  | cons r rest ih =>
    unfold runs
    split
    · next none => rw [none] at ih; simpa using ih
    · next owner group more some =>
      rw [some] at ih
      split
      · simpa using ih
      · simpa using ih

namespace State

/-- A new batch is of requests that nobody has. -/
theorem Held.writeDocs (held : s.Held) {w : ℕ} {batch : List Request} {ok : Bool} {recordEnd : ℕ}
    (able : s.enabled (.writeDocs w batch ok recordEnd)) :
    (s.next cfg (.writeDocs w batch ok recordEnd)).Held := by
  obtain ⟨idle, nodup, fresh⟩ := of_decide_eq_true able
  have plan := planBatch_perm cfg.batchSort cfg.sortDupThreshold batch
  have places := place_setWriter { s with accepted := s.accepted ++ batch } w
    (.written (planBatch cfg.batchSort cfg.sortDupThreshold batch).1
      (planBatch cfg.batchSort cfg.sortDupThreshold batch).2 ok recordEnd)
  constructor
  · rw [State.next, places]
    apply held.distinct.update (plan.nodup_iff.mpr nodup)
    exact fun r member => .inr fun p before => fresh r (plan.subset member) (held.known p r before)
  · rw [State.next, places]
    exact forall_update (P := fun _ l => ∀ r ∈ l, r ∈ s.accepted ++ batch)
      (fun r member => List.mem_append_right _ (plan.subset member))
      fun p r member => List.mem_append_left _ (held.known p r member)

/-- A chain goes from its writer to its loop. -/
theorem Held.casPush (held : s.Held) {w t : ℕ} {chain : List Request} {head : Option Request} {share : Share}
    (able : s.enabled (.casPush w t chain head share)) :
    (s.next cfg (.casPush w t chain head share)).Held := by
  have able := of_decide_eq_true able
  refine held.move (p := .writer w) (q := .loop t) Place.noConfusion ?_
    ((place_setLoop _ t _).trans (by rw [place_setWriter])) rfl
  have parked : (share.reqs ++ ((chain ++ (s.loops t).parkedHead) ++ (s.loops t).waiting)).Perm
      ((chain ++ share.reqs) ++ ((s.loops t).parkedHead ++ (s.loops t).waiting)) := by
    simp only [List.perm_iff_count, List.count_append]
    intro r
    omega
  simp only [place, able.1]
  exact parked

/-- A drain answers a request that its loop has. -/
theorem Held.drainAnswer (held : s.Held) {t : ℕ} {r : Request} {durable i kept done : ℕ}
    (able : s.enabled (.drainAnswer t r durable i kept done)) :
    (s.next cfg (.drainAnswer t r durable i kept done)).Held := by
  obtain ⟨running, current, covered⟩ := of_decide_eq_true able
  refine held.move (p := .loop t) (q := .answered) Place.noConfusion ?_
    ((place_sendWriteResponse _ r).trans (by rw [place_setLoop])) rfl
  have answered := (Loop.reqs_answer running current).append_left (s.answers.map Answer.req)
  exact (List.perm_iff_count.mpr fun x => by simp only [List.count_append, State.setLoop]; omega).trans
    (answered.trans List.perm_append_comm)

/-- A loop answers a request that was posted to it. -/
theorem Held.answer (held : s.Held) {r : Request} (able : s.enabled (.answer r)) :
    (s.next cfg (.answer r)).Held := by
  have member : r ∈ s.mail := of_decide_eq_true able
  have unposted : ({ s with mail := s.mail.erase r } : State).place =
      Function.update s.place .mail (s.mail.erase r) := by
    funext p
    cases p <;> simp [place]
  refine held.move (p := .mail) (q := .answered) Place.noConfusion ?_
    ((place_sendWriteResponse _ r).trans (by rw [unposted])) rfl
  simp only [place]
  have answered := (List.perm_cons_erase member).symm.append_right (s.answers.map Answer.req)
  refine List.Perm.trans ?_ answered
  rw [← List.append_assoc]
  exact List.perm_append_comm.trans (by rw [List.singleton_append, List.cons_append])

theorem Held.next (held : s.Held) (ordered : ∀ t, (s.loops t).Ordered s.watermark) (able : s.enabled e) :
    (s.next cfg e).Held := by
  cases e with
  | writeDocs w batch ok recordEnd => exact held.writeDocs able
  | fail | failed | casMiss => exact held.writer (of_decide_eq_true able) (.refl _)
  | postFailed w r rest =>
    refine held.post (p := .writer w) Place.noConfusion ?_ (place_setWriter _ w _) rfl rfl
    simp only [place, of_decide_eq_true able]
    exact List.perm_append_singleton r rest
  | stamp w kept dropped recordEnd lsn =>
    exact Held.writer (held.same rfl rfl) (of_decide_eq_true able).1 (.refl _)
  | awaitDurable w batch lsn =>
    apply held.await
    rw [(of_decide_eq_true able).1]
    exact .refl _
  | group w batch sorted lsn =>
    obtain ⟨stands, _, grouped⟩ := of_decide_eq_true able
    refine Held.writer (held.same rfl rfl) stands ?_
    simpa only [WriterPc.reqs, Share.reqs, runs_flatMap, List.append_nil] using grouped
  | orphan w reqs share =>
    refine held.writer (of_decide_eq_true able) ?_
    simp only [WriterPc.reqs, Share.reqs, List.flatMap_cons, List.perm_iff_count, List.count_append]
    intro r
    omega
  | loadHead w t chain share =>
    refine held.writer (of_decide_eq_true able) ?_
    simp only [WriterPc.reqs, Share.reqs, List.flatMap_cons, List.append_assoc]
    exact .refl _
  | casPush w t chain head share => exact held.casPush able
  | addCount w t n share => exact Held.setLoop (held.writer (of_decide_eq_true able) (.refl _)) (.refl _)
  | seeRegistered w t share => exact held.writer (of_decide_eq_true able).1 (.refl _)
  | register w t share =>
    exact Held.setLoop (Held.writer (held.same rfl rfl) (of_decide_eq_true able).1 (.refl _)) (.refl _)
  | handOrphans w share =>
    apply held.await
    rw [(of_decide_eq_true able).1]
    simp only [WriterPc.reqs, Share.reqs, List.append_nil]
    exact .refl _
  | addBytes w share =>
    obtain ⟨stands, none, gone⟩ := of_decide_eq_true able
    refine held.writer stands ?_
    simp only [WriterPc.reqs, Share.reqs, none, gone]
    exact .refl _
  | bumpGen w begun => exact Held.writer (held.same rfl rfl) (of_decide_eq_true able) (.refl _)
  | loadGen | loadDurable _ | unchanged _ _ | lockLoops _ _ | wakeLoad _ _ _ _ | wakeDone _ _ | advance _ |
    openNotifier | closeNotifier => exact held.same rfl rfl
  | wakeExchange | wakePost => exact Held.setLoop (held.same rfl rfl) (.refl _)
  | drainEnter t | drainClear t | drainSub t done =>
    have able := of_decide_eq_true able
    apply held.setLoop
    exact Loop.reqs_perm_of_settled (by simp [able, DrainPc.settled]) rfl (.refl _)
  | drainCheck t =>
    have able := of_decide_eq_true able
    apply held.setLoop
    exact Loop.reqs_perm_of_settled (by rw [able]; rfl) (by dsimp only; split <;> rfl) (.refl _)
  | drainTake t =>
    have able := of_decide_eq_true able
    apply held.setLoop
    exact Loop.reqs_take (by rw [able]; rfl)
  | drainLoad t =>
    have able := of_decide_eq_true able
    apply held.setLoop
    rw [Loop.reqs_load (by rw [able]; rfl)]
  | drainAnswer t r durable i kept done => exact held.drainAnswer able
  | drainKeep t r durable i kept done =>
    obtain ⟨running, current, ahead⟩ := of_decide_eq_true able
    apply held.setLoop
    rw [Loop.reqs_keep running (ordered t running).1 current]
  | drainEnd t durable i kept done =>
    obtain ⟨running, all⟩ := of_decide_eq_true able
    apply held.setLoop
    rw [Loop.reqs_end running all]
  | completeLoad | completeDone =>
    apply held.setShard
    simp only [Completion.reqs, of_decide_eq_true able, CompletionPc.ready]
    exact .refl _
  | completePop shard durable =>
    apply held.setShard
    simp only [Completion.reqs, of_decide_eq_true able, CompletionPc.ready, List.append_nil]
    apply List.Perm.flatMap_right
    exact List.perm_append_comm.trans (by rw [List.takeWhile_append_dropWhile])
  | completePost shard p ready =>
    refine held.post (p := .shard shard) Place.noConfusion ?_ (place_setShard _ shard _) rfl rfl
    simp only [place, Completion.reqs, of_decide_eq_true able, CompletionPc.ready, List.flatMap_append,
      List.flatMap_cons, List.perm_iff_count, List.count_append]
    intro r
    omega
  | answer r => exact held.answer able

/-- What a step does to the requests of a loop: a chain is pushed to it, or some are answered. -/
def Turns (cfg : Config) (s : State) (e : Event) (t : ℕ) (after : List Request) : Prop :=
  ∃ pushed answered, (after ++ answered).Perm (pushed ++ (s.loops t).reqs) ∧
    (∀ r ∈ pushed, ∃ w chain head share, e = .casPush w t chain head share ∧ r ∈ chain) ∧
    ∀ r ∈ answered, r ∈ (s.next cfg e).answers.map Answer.req

theorem turns_of_perm {t : ℕ} {after : List Request} (turned : after.Perm (s.loops t).reqs) :
    Turns cfg s e t after :=
  ⟨[], [], by simpa using turned, (fun _ absurd => nomatch absurd), fun _ absurd => nomatch absurd⟩

variable (cfg) in
theorem turns_next (ordered : ∀ t, (s.loops t).Ordered s.watermark) (able : s.enabled e) :
    ∀ t, Turns cfg s e t ((s.next cfg e).loops t).reqs := by
  have here : ∀ t, Turns cfg s e t (s.loops t).reqs := fun _ => turns_of_perm (.refl _)
  have put : ∀ {t : ℕ} {l : Loop}, Turns cfg s e t l.reqs →
      ∀ t', Turns cfg s e t' (Function.update s.loops t l t').reqs :=
    fun now => forall_update (P := fun t l => Turns cfg s e t (Loop.reqs l)) now here
  have turn : ∀ {t : ℕ} {l : Loop}, l.reqs.Perm (s.loops t).reqs →
      ∀ t', Turns cfg s e t' (Function.update s.loops t l t').reqs :=
    fun turned => put (turns_of_perm turned)
  cases e with
  | casPush w t chain head share =>
    refine put ⟨chain, [], ?_, fun r mine => ⟨w, chain, head, share, rfl, mine⟩, fun _ absurd => nomatch absurd⟩
    simp only [Loop.reqs, List.append_nil, List.append_assoc]
    exact .refl _
  | addCount w t n share | register w t share | wakeExchange g d t left | wakePost g d t left =>
    exact turn (.refl _)
  | drainEnter t | drainClear t | drainSub t done =>
    have able := of_decide_eq_true able
    exact turn (Loop.reqs_perm_of_settled (by simp [able, DrainPc.settled]) rfl (.refl _))
  | drainCheck t =>
    have able := of_decide_eq_true able
    exact turn (Loop.reqs_perm_of_settled (by rw [able]; rfl) (by dsimp only; split <;> rfl) (.refl _))
  | drainTake t =>
    have able := of_decide_eq_true able
    exact turn (Loop.reqs_take (by rw [able]; rfl))
  | drainLoad t =>
    have able := of_decide_eq_true able
    exact turn (by rw [Loop.reqs_load (by rw [able]; rfl)])
  | drainAnswer t r durable i kept done =>
    obtain ⟨running, current, covered⟩ := of_decide_eq_true able
    refine put ⟨[], [r], Loop.reqs_answer running current, (fun _ absurd => nomatch absurd), fun r' mine => ?_⟩
    obtain rfl := List.mem_singleton.mp mine
    exact List.mem_map_of_mem (f := Answer.req) (List.mem_append_right _ List.mem_cons_self)
  | drainKeep t r durable i kept done =>
    obtain ⟨running, current, ahead⟩ := of_decide_eq_true able
    exact turn (by rw [Loop.reqs_keep running (ordered t running).1 current])
  | drainEnd t durable i kept done =>
    obtain ⟨running, all⟩ := of_decide_eq_true able
    exact turn (by rw [Loop.reqs_end running all])
  | _ => exact here

/-- What a step leaves on a loop was there, or is in the chain the step pushes. -/
theorem parked_of_mem_next {t : ℕ} {r : Request} (ordered : ∀ t, (s.loops t).Ordered s.watermark)
    (able : s.enabled e) (member : r ∈ ((s.next cfg e).loops t).reqs) :
    r ∈ (s.loops t).reqs ∨ ∃ w chain head share, e = .casPush w t chain head share ∧ r ∈ chain := by
  obtain ⟨pushed, answered, turned, source, _⟩ := turns_next cfg ordered able t
  rcases List.mem_append.mp (turned.subset (List.mem_append_left _ member)) with mine | here
  · exact .inr (source r mine)
  · exact .inl here

/-- What a step takes off a loop is answered. -/
theorem answered_of_not_mem_next {t : ℕ} {r : Request} (ordered : ∀ t, (s.loops t).Ordered s.watermark)
    (able : s.enabled e) (member : r ∈ (s.loops t).reqs) :
    r ∈ ((s.next cfg e).loops t).reqs ∨ r ∈ (s.next cfg e).answers.map Answer.req := by
  obtain ⟨pushed, answered, turned, _, done⟩ := turns_next cfg ordered able t
  rcases List.mem_append.mp (turned.symm.subset (List.mem_append_right _ member)) with still | mine
  · exact .inl still
  · exact .inr (done r mine)

/-- A request is in a batch stamped with a position. -/
def Stamped (s : State) (r : Request) (lsn : ℕ) : Prop := ∃ b ∈ s.batches, r ∈ b.reqs ∧ b.lsn = lsn

/-- A position the watermark has passed. -/
def Passed (s : State) (r : Request) : Prop := ∃ lsn ≤ s.watermark, s.Stamped r lsn

theorem mem_batches_next {b : Batch} (member : b ∈ s.batches) : b ∈ (s.next cfg e).batches := by
  cases e with
  | stamp w kept dropped recordEnd lsn => exact List.mem_append_left _ member
  | _ => exact member

theorem Stamped.next {r : Request} {lsn : ℕ} (stamped : s.Stamped r lsn) : (s.next cfg e).Stamped r lsn := by
  obtain ⟨b, member, mine⟩ := stamped
  exact ⟨b, mem_batches_next member, mine⟩

theorem Passed.next {r : Request} (passed : s.Passed r) (able : s.enabled e) : (s.next cfg e).Passed r := by
  obtain ⟨lsn, covered, stamped⟩ := passed
  exact ⟨lsn, Nat.le_trans covered (watermark_le_next able), stamped.next⟩

/-- Only the writer of a request stamps it. -/
theorem durableLsn_next {p : Place} {r : Request} (held : s.Held) (able : s.enabled e) (member : r ∈ s.place p)
    (grouped : ∀ w, p = .writer w → (s.writers w).shared = true) : (s.next cfg e).durableLsn r = s.durableLsn r := by
  cases e with
  | group w batch sorted lsn =>
    have unstamped : s.writers w = .stamped batch lsn := (of_decide_eq_true able).1
    have apart : r ∉ batch := by
      intro mine
      have same : p = .writer w :=
        held.distinct.single member (by rw [place, unstamped]; exact mine)
      have contra := grouped w same
      rw [unstamped] at contra
      cases contra
    exact if_neg apart
  | _ => rfl

/-- What a writer has of a stamped batch is in that batch, and the requests know it once it is shared out. -/
def Marked (s : State) (pc : WriterPc) : Prop :=
  ∀ lsn, pc.position = some lsn → ∀ r ∈ pc.reqs, s.Stamped r lsn ∧ (pc.shared = true → s.durableLsn r = lsn)

theorem Marked.sub {pc pc' : WriterPc} (marked : s.Marked pc) (position : pc'.position = pc.position)
    (shared : pc'.shared = true → pc.shared = true) (fewer : pc'.reqs ⊆ pc.reqs) : s.Marked pc' := by
  intro lsn here r member
  obtain ⟨stamped, known⟩ := marked lsn (position ▸ here) r (fewer member)
  exact ⟨stamped, fun sharing => known (shared sharing)⟩

theorem Marked.of_none {pc : WriterPc} (unstamped : pc.position = none) : s.Marked pc := by
  intro lsn stamped
  rw [unstamped] at stamped
  cases stamped

theorem Marked.next {w : ℕ} (marked : s.Marked (s.writers w)) (held : s.Held) (able : s.enabled e) :
    (s.next cfg e).Marked (s.writers w) := by
  intro lsn here r member
  obtain ⟨stamped, known⟩ := marked lsn here r member
  refine ⟨stamped.next, fun sharing => ?_⟩
  rw [← known sharing]
  apply durableLsn_next (p := .writer w) held able member
  rintro w' ⟨⟩
  exact sharing

theorem marked_next (marked : ∀ w, s.Marked (s.writers w)) (held : s.Held) (able : s.enabled e) :
    ∀ w, (s.next cfg e).Marked ((s.next cfg e).writers w) := by
  have carried : ∀ w, (s.next cfg e).Marked (s.writers w) := fun w => (marked w).next held able
  have put : ∀ {w : ℕ} {pc : WriterPc}, (s.next cfg e).Marked pc →
      ∀ w', (s.next cfg e).Marked (Function.update s.writers w pc w') :=
    fun here => forall_update (P := fun _ pc => (s.next cfg e).Marked pc) here carried
  have sub : ∀ {w : ℕ} {old pc : WriterPc}, s.writers w = old → pc.position = old.position →
      (pc.shared = true → old.shared = true) → pc.reqs ⊆ old.reqs →
      ∀ w', (s.next cfg e).Marked (Function.update s.writers w pc w') :=
    fun here position shared fewer => put ((here ▸ carried _).sub position shared fewer)
  cases e with
  | writeDocs | fail | postFailed | failed | awaitDurable | addBytes | bumpGen => exact put (.of_none rfl)
  | stamp w kept dropped recordEnd lsn =>
    refine put ?_
    rintro lsn ⟨⟩ r member
    exact ⟨⟨_, List.mem_append_right _ List.mem_cons_self, member, rfl⟩, fun sharing => nomatch sharing⟩
  | group w batch sorted lsn =>
    obtain ⟨stamped, _, turned⟩ := of_decide_eq_true able
    have known := carried w
    rw [stamped] at known
    refine put ?_
    rintro lsn ⟨⟩ r member
    have mine : r ∈ batch := by
      simp only [WriterPc.reqs, Share.reqs, runs_flatMap, List.append_nil] at member
      exact turned.subset member
    exact ⟨(known lsn rfl r mine).1, fun _ => if_pos mine⟩
  | orphan w reqs share =>
    refine sub (of_decide_eq_true able) rfl (fun _ => rfl) ?_
    simp only [WriterPc.reqs, Share.reqs, List.flatMap_cons]
    intro r member
    simp only [List.mem_append] at member ⊢
    tauto
  | loadHead w t chain share =>
    refine sub (of_decide_eq_true able) rfl (fun _ => rfl) ?_
    simp only [WriterPc.reqs, Share.reqs, List.flatMap_cons, List.append_assoc]
    exact List.Subset.refl _
  | casMiss | addCount => exact sub (of_decide_eq_true able) rfl (fun _ => rfl) (List.Subset.refl _)
  | casPush => exact sub (of_decide_eq_true able).1 rfl (fun _ => rfl) (List.subset_append_right _ _)
  | seeRegistered | register => exact sub (of_decide_eq_true able).1 rfl (fun _ => rfl) (List.Subset.refl _)
  | handOrphans w share =>
    refine sub (of_decide_eq_true able).1 rfl (fun _ => rfl) ?_
    simp only [WriterPc.reqs, Share.reqs, List.append_nil]
    exact List.subset_append_left _ _
  | _ => exact carried

theorem parked_next (parked : ∀ t, ∀ r ∈ (s.loops t).reqs, s.Stamped r (s.durableLsn r))
    (marked : ∀ w, s.Marked (s.writers w)) (held : s.Held) (ordered : ∀ t, (s.loops t).Ordered s.watermark)
    (able : s.enabled e) :
    ∀ t, ∀ r ∈ ((s.next cfg e).loops t).reqs, (s.next cfg e).Stamped r ((s.next cfg e).durableLsn r) := by
  intro t r member
  rcases parked_of_mem_next ordered able member with here | ⟨w, chain, head, share, rfl, mine⟩
  · rw [durableLsn_next (p := .loop t) held able here (fun _ absurd => nomatch absurd)]
    exact (parked t r here).next
  · have pushing : s.writers w = .pushing t chain head share := (of_decide_eq_true able).1
    have owned : r ∈ (s.writers w).reqs := by
      rw [pushing]
      exact List.mem_append_left _ mine
    obtain ⟨stamped, known⟩ := marked w share.lsn (by rw [pushing]; rfl) r owned
    have sharing : (s.writers w).shared = true := by rw [pushing]; rfl
    rw [durableLsn_next (p := .writer w) held able owned (by rintro w' ⟨⟩; exact sharing), known sharing]
    exact stamped.next

/-- A completion thread takes batches off its queue when the watermark has passed them. -/
structure Sound (s : State) (c : Completion) : Prop where
  stamped : ∀ p ∈ c.durableQueue ++ c.pc.ready, ∀ r ∈ p.reqs, s.Stamped r p.lsn
  ready : ∀ p ∈ c.pc.ready, p.lsn ≤ s.watermark
  loaded : ∀ {durable}, c.pc = .loaded durable → durable ≤ s.watermark

theorem Sound.next {c : Completion} (sound : s.Sound c) (able : s.enabled e) : (s.next cfg e).Sound c where
  stamped p member r mine := (sound.stamped p member r mine).next
  ready p member := Nat.le_trans (sound.ready p member) (watermark_le_next able)
  loaded here := Nat.le_trans (sound.loaded here) (watermark_le_next able)

theorem Sound.await {c : Completion} {p : PendingDurable} (sound : s.Sound c) (mine : ∀ r ∈ p.reqs, s.Stamped r p.lsn) :
    s.Sound { c with durableQueue := c.durableQueue ++ [p] } where
  stamped q member := by
    simp only [List.append_assoc, List.mem_append, List.singleton_append, List.mem_cons] at member
    rcases member with queued | rfl | ready
    · exact sound.stamped q (List.mem_append_left _ queued)
    · exact mine
    · exact sound.stamped q (List.mem_append_right _ ready)
  ready := sound.ready
  loaded := sound.loaded

theorem sound_next (sound : ∀ shard, s.Sound (s.shards shard)) (marked : ∀ w, s.Marked (s.writers w))
    (able : s.enabled e) : ∀ shard, (s.next cfg e).Sound ((s.next cfg e).shards shard) := by
  have carried : ∀ shard, (s.next cfg e).Sound (s.shards shard) := fun shard => (sound shard).next able
  have put : ∀ {shard : ℕ} {c : Completion}, (s.next cfg e).Sound c →
      ∀ shard', (s.next cfg e).Sound (Function.update s.shards shard c shard') :=
    fun here => forall_update (P := fun _ c => (s.next cfg e).Sound c) here carried
  cases e with
  | awaitDurable w batch lsn =>
    have writing : s.writers w = .stamped batch lsn := (of_decide_eq_true able).1
    refine put ((carried _).await fun r member => ?_)
    exact ((marked w lsn (by rw [writing]; rfl) r (by rw [writing]; exact member)).1).next
  | handOrphans w share =>
    have writing : s.writers w = .parking share := (of_decide_eq_true able).1
    refine put ((carried _).await fun r member => ?_)
    refine ((marked w share.lsn (by rw [writing]; rfl) r ?_).1).next
    rw [writing]
    exact List.mem_append_right _ member
  | completeLoad shard =>
    have idle : (s.shards shard).pc = .idle := of_decide_eq_true able
    refine put ⟨fun p member => ?_, (fun p absent => nomatch absent), ?_⟩
    · apply (carried shard).stamped p
      rw [idle]
      exact member
    · rintro durable ⟨⟩
      exact Nat.le_refl _
  | completePop shard durable =>
    have loaded : (s.shards shard).pc = .loaded durable := of_decide_eq_true able
    refine put ⟨fun p member => ?_, fun p popped => ?_, fun absurd => nomatch absurd⟩
    · apply (carried shard).stamped p
      apply List.mem_append_left
      rcases List.mem_append.mp member with left | popped
      · exact (List.dropWhile_sublist _).subset left
      · exact (List.takeWhile_sublist _).subset popped
    · have taken : p ∈ (s.shards shard).durableQueue.takeWhile fun p => p.lsn ≤ durable := popped
      have covered := List.mem_takeWhile_imp taken
      simp only [decide_eq_true_eq] at covered
      exact Nat.le_trans covered ((carried shard).loaded loaded)
  | completePost shard p ready =>
    have posting : (s.shards shard).pc = .posting (p :: ready) := of_decide_eq_true able
    have before := carried shard
    refine put ⟨fun q member => ?_, fun q member => ?_, fun absurd => nomatch absurd⟩
    · apply before.stamped q
      rw [posting]
      rcases List.mem_append.mp member with queued | later
      · exact List.mem_append_left _ queued
      · exact List.mem_append_right _ (List.mem_cons_of_mem p later)
    · apply before.ready q
      rw [posting]
      exact List.mem_cons_of_mem p member
  | completeDone shard =>
    refine put ⟨fun p member => ?_, (fun p absent => nomatch absent), fun absurd => nomatch absurd⟩
    apply (carried shard).stamped p
    rw [of_decide_eq_true able]
    exact member
  | _ => exact carried

theorem resultOk_of_next {r : Request} (good : (s.next cfg e).resultOk r = true) : s.resultOk r = true := by
  cases e with
  | postFailed w r' rest =>
    simp only [State.next, State.post, State.setWriter, Function.update_apply] at good
    split at good
    · cases good
    · exact good
  | completePost shard p ready =>
    simp only [State.next, State.post, State.setShard] at good
    split at good
    · cases good
    · exact good
  | _ => exact good

theorem mail_next (mail : ∀ r ∈ s.mail, s.resultOk r = true → s.Passed r)
    (sound : ∀ shard, s.Sound (s.shards shard)) (able : s.enabled e) :
    ∀ r ∈ (s.next cfg e).mail, (s.next cfg e).resultOk r = true → (s.next cfg e).Passed r := by
  have carried : ∀ r ∈ s.mail, (s.next cfg e).resultOk r = true → (s.next cfg e).Passed r :=
    fun r member good => (mail r member (resultOk_of_next good)).next able
  cases e with
  | postFailed w r' rest =>
    intro r member good
    rcases List.mem_append.mp member with before | posted
    · exact carried r before good
    · obtain rfl := List.mem_singleton.mp posted
      simp only [State.next, State.post, State.setWriter, Function.update_self] at good
      cases good
  | completePost shard p ready =>
    have posting : (s.shards shard).pc = .posting (p :: ready) := of_decide_eq_true able
    intro r member good
    rcases List.mem_append.mp member with before | posted
    · exact carried r before good
    · have mine : p ∈ (s.shards shard).pc.ready := by
        rw [posting]
        exact List.mem_cons_self
      have stamped := (sound shard).stamped p (List.mem_append_right _ mine) r posted
      exact Passed.next ⟨p.lsn, (sound shard).ready p mine, stamped⟩ able
  | answer r' => exact fun r member => carried r (List.mem_of_mem_erase member)
  | _ => exact carried

/-- What an answer promises: the watermark had passed the batch of the request. -/
def Kept (s : State) (a : Answer) : Prop := a.success = true → ∃ lsn ≤ a.watermark, s.Stamped a.req lsn

theorem Kept.next {a : Answer} (kept : s.Kept a) : (s.next cfg e).Kept a := by
  intro success
  obtain ⟨lsn, covered, stamped⟩ := kept success
  exact ⟨lsn, covered, stamped.next⟩

theorem kept_next (kept : ∀ a ∈ s.answers, s.Kept a) (parked : ∀ t, ∀ r ∈ (s.loops t).reqs, s.Stamped r (s.durableLsn r))
    (ordered : ∀ t, (s.loops t).Ordered s.watermark) (mail : ∀ r ∈ s.mail, s.resultOk r = true → s.Passed r)
    (able : s.enabled e) : ∀ a ∈ (s.next cfg e).answers, (s.next cfg e).Kept a := by
  have carried : ∀ a ∈ s.answers, (s.next cfg e).Kept a := fun a member => (kept a member).next
  have put : ∀ {r}, (s.resultOk r = true → s.Passed r) →
      ∀ a ∈ s.answers ++ [⟨r, s.resultOk r, s.watermark⟩], (s.next cfg e).Kept a := by
    intro r passed a member
    rcases List.mem_append.mp member with before | now
    · exact carried a before
    · obtain rfl := List.mem_singleton.mp now
      exact Kept.next passed
  cases e with
  | drainAnswer t r durable i kept done =>
    obtain ⟨running, current, covered⟩ := of_decide_eq_true able
    refine put fun _ => ⟨s.durableLsn r, Nat.le_trans covered (ordered t running).2, parked t r ?_⟩
    exact (Loop.reqs_answer running current).subset (List.mem_append_right _ List.mem_cons_self)
  | answer r => exact put (mail r (of_decide_eq_true able))
  | _ => exact carried

/-- The lists a batch was split into when its duplicates were dropped. -/
def Planned (cfg : Config) (s : State) (kept dropped : List Request) : Prop :=
  ∃ batch, batch.Sublist s.accepted ∧ planBatch cfg.batchSort cfg.sortDupThreshold batch = (kept, dropped)

theorem accepted_next : s.accepted.Sublist (s.next cfg e).accepted := by
  cases e with
  | writeDocs w batch ok recordEnd => exact List.sublist_append_left _ _
  | _ => exact List.Sublist.refl _

theorem Planned.next {kept dropped : List Request} (planned : Planned cfg s kept dropped) :
    Planned cfg (s.next cfg e) kept dropped := by
  obtain ⟨batch, inside, plan⟩ := planned
  exact ⟨batch, inside.trans accepted_next, plan⟩

/-- A request of a batch was written, or a later write of its key was written in its place. -/
theorem Planned.superseded {kept dropped : List Request} (planned : Planned cfg s kept dropped) {r : Request}
    (member : r ∈ kept ++ dropped) : r ∈ kept ∨ ∃ w ∈ kept, w.key = r.key ∧ [r, w].Sublist s.accepted := by
  obtain ⟨batch, inside, plan⟩ := planned
  have turned := planBatch_perm cfg.batchSort cfg.sortDupThreshold batch
  rw [plan] at turned
  have late := planBatch_superseded cfg.batchSort cfg.sortDupThreshold batch (turned.subset member)
  rw [plan] at late
  rcases late with here | ⟨w, here, same, later⟩
  · exact .inl here
  · exact .inr ⟨w, here, same, later.trans inside⟩

/-- The batches of the log share no request with each other or with a batch still to be stamped. -/
structure Logged (cfg : Config) (s : State) : Prop where
  planned : ∀ b ∈ s.batches, Planned cfg s b.kept b.dropped
  ended : ∀ b ∈ s.batches, b.recordEnd ≤ b.lsn
  known : ∀ b ∈ s.batches, ∀ r ∈ b.reqs, r ∈ s.accepted
  apart : s.batches.Pairwise fun b c => b.reqs.Disjoint c.reqs
  written : ∀ {w kept dropped ok recordEnd}, s.writers w = .written kept dropped ok recordEnd →
    Planned cfg s kept dropped ∧ ∀ b ∈ s.batches, b.reqs.Disjoint (kept ++ dropped)

/-- An event other than `writeDocs` starts no batch. -/
theorem writers_next_written {w : ℕ} {kept dropped : List Request} {ok : Bool} {recordEnd : ℕ}
    (after : (s.next cfg e).writers w = .written kept dropped ok recordEnd) :
    s.writers w = .written kept dropped ok recordEnd ∨ ∃ batch, e = .writeDocs w batch ok recordEnd ∧
      planBatch cfg.batchSort cfg.sortDupThreshold batch = (kept, dropped) := by
  have other : ∀ {w' : ℕ} {pc : WriterPc}, (∀ k d o n, pc ≠ .written k d o n) →
      Function.update s.writers w' pc w = .written kept dropped ok recordEnd →
      s.writers w = .written kept dropped ok recordEnd := by
    intro w' pc different after
    rw [Function.update_apply] at after
    split at after
    · exact (different _ _ _ _ after).elim
    · exact after
  cases e with
  | writeDocs w' batch ok' recordEnd' =>
    simp only [State.next, State.setWriter, Function.update_apply] at after
    split at after
    · next same =>
      cases after
      exact .inr ⟨batch, by rw [same], rfl⟩
    · exact .inl after
  | fail | postFailed | failed | stamp | awaitDurable | group | orphan | loadHead | casMiss | casPush | addCount
  | seeRegistered | register | handOrphans | addBytes | bumpGen =>
    exact .inl (other (fun _ _ _ _ => WriterPc.noConfusion) after)
  | _ => exact .inl after

theorem Logged.same (logged : Logged cfg s) (able : s.enabled e) (batches : (s.next cfg e).batches = s.batches) :
    Logged cfg (s.next cfg e) where
  planned := by
    rw [batches]
    exact fun b member => (logged.planned b member).next
  ended := by
    rw [batches]
    exact logged.ended
  known := by
    rw [batches]
    exact fun b member r mine => accepted_next.subset (logged.known b member r mine)
  apart := by
    rw [batches]
    exact logged.apart
  written := by
    intro w kept dropped ok recordEnd after
    rw [batches]
    rcases writers_next_written after with before | ⟨batch, rfl, plan⟩
    · obtain ⟨planned, disjoint⟩ := logged.written before
      exact ⟨planned.next, disjoint⟩
    · obtain ⟨_, _, fresh⟩ := of_decide_eq_true able
      refine ⟨⟨batch, List.sublist_append_right _ _, plan⟩, fun b member r mine here => ?_⟩
      have turned := planBatch_perm cfg.batchSort cfg.sortDupThreshold batch
      rw [plan] at turned
      exact fresh r (turned.subset here) (logged.known b member r mine)

theorem Logged.next (logged : Logged cfg s) (held : s.Held) (able : s.enabled e) :
    Logged cfg (s.next cfg e) := by
  cases e with
  | stamp w kept dropped recordEnd lsn =>
    obtain ⟨writing, ended⟩ := of_decide_eq_true able
    obtain ⟨planned, disjoint⟩ := logged.written writing
    have owned : s.place (.writer w) = kept ++ dropped := by rw [place, writing]; rfl
    have each : ∀ {P : Batch → Prop}, (∀ b ∈ s.batches, P b) → P ⟨kept, dropped, recordEnd, lsn⟩ →
        ∀ b ∈ s.batches ++ [⟨kept, dropped, recordEnd, lsn⟩], P b := by
      intro P before now b member
      rcases List.mem_append.mp member with here | here
      · exact before b here
      · obtain rfl := List.mem_singleton.mp here
        exact now
    refine ⟨each logged.planned planned, each logged.ended ended, each logged.known ?_, ?_, ?_⟩
    · exact fun r mine => held.known (.writer w) r (owned ▸ mine)
    · apply List.pairwise_append.mpr
      refine ⟨logged.apart, List.pairwise_singleton _ _, fun b member c single => ?_⟩
      obtain rfl := List.mem_singleton.mp single
      exact disjoint b member
    · intro w' kept' dropped' ok recordEnd' after
      have other : w' ≠ w := by
        rintro rfl
        simp only [State.next, State.setWriter, Function.update_self] at after
        cases after
      rcases writers_next_written after with before | ⟨batch, absurd, plan⟩
      · obtain ⟨planned', disjoint'⟩ := logged.written before
        refine ⟨planned', each disjoint' ?_⟩
        have elsewhere : s.place (.writer w') = kept' ++ dropped' := by rw [place, before]; rfl
        have apart := held.distinct.disjoint (p := .writer w) (q := .writer w') fun same => other (by cases same; rfl)
        rw [owned, elsewhere] at apart
        exact apart
      · cases absurd
  | _ => exact logged.same able rfl

/-- What holds in every run. -/
structure Covered (cfg : Config) (s : State) : Prop where
  held : s.Held
  ordered : ∀ t, (s.loops t).Ordered s.watermark
  marked : ∀ w, s.Marked (s.writers w)
  parked : ∀ t, ∀ r ∈ (s.loops t).reqs, s.Stamped r (s.durableLsn r)
  sound : ∀ shard, s.Sound (s.shards shard)
  mail : ∀ r ∈ s.mail, s.resultOk r = true → s.Passed r
  kept : ∀ a ∈ s.answers, s.Kept a
  logged : Logged cfg s

theorem covered_start : Covered cfg start where
  held := ⟨⟨fun p => by cases p <;> exact List.nodup_nil, fun {i} _ _ member => by cases i <;> cases member⟩,
    fun p _ member => by cases p <;> cases member⟩
  ordered _ _ _ _ _ answering := nomatch answering
  marked _ := .of_none rfl
  parked _ _ member := nomatch member
  sound _ := ⟨(fun _ member => nomatch member), (fun _ member => nomatch member), fun loaded => nomatch loaded⟩
  mail _ member := nomatch member
  kept _ member := nomatch member
  logged := ⟨(fun _ member => nomatch member), (fun _ member => nomatch member), (fun _ member => nomatch member),
    List.Pairwise.nil, fun writing => nomatch writing⟩

theorem Covered.next (covered : Covered cfg s) (able : s.enabled e) : Covered cfg (s.next cfg e) where
  held := covered.held.next covered.ordered able
  ordered := ordered_next covered.ordered able
  marked := marked_next covered.marked covered.held able
  parked := parked_next covered.parked covered.marked covered.held covered.ordered able
  sound := sound_next covered.sound covered.marked able
  mail := mail_next covered.mail covered.sound able
  kept := kept_next covered.kept covered.parked covered.ordered covered.mail able
  logged := covered.logged.next covered.held able

theorem covered_of_reach (reached : Reach (State.step cfg) start s) : Covered cfg s := by
  apply reached.invariant (P := Covered cfg) covered_start
  intro s t e covered taken
  obtain ⟨able, rfl⟩ := step_eq_some taken
  exact covered.next able

/-- In every run a request is answered at most once. An answer says Success when the watermark had passed the
position that the request's batch was stamped with. The batch's record ends before that position and holds the
request, or a later write of its key. -/
theorem durable_answers_covered_once (reached : Reach (State.step cfg) start s) :
    (∀ a ∈ s.answers, a.success = true → (∃ b ∈ s.batches, a.req ∈ b.reqs) ∧
      ∀ b ∈ s.batches, a.req ∈ b.reqs → b.recordEnd ≤ b.lsn ∧ b.lsn ≤ a.watermark ∧
        (a.req ∈ b.kept ∨ ∃ w ∈ b.kept, w.key = a.req.key ∧ [a.req, w].Sublist s.accepted)) ∧
      (s.answers.map Answer.req).Nodup := by
  have covered := covered_of_reach reached
  refine ⟨fun a member success => ?_, covered.held.distinct.nodup .answered⟩
  obtain ⟨lsn, passed, b, logged, mine, rfl⟩ := covered.kept a member success
  refine ⟨⟨b, logged, mine⟩, fun c logged' mine' => ?_⟩
  obtain rfl : c = b := by
    by_contra different
    have : Std.Symm fun b c : Batch => b.reqs.Disjoint c.reqs := ⟨fun _ _ apart _ second first => apart first second⟩
    exact covered.logged.apart.forall logged' logged different mine' mine
  exact ⟨covered.logged.ended c logged, passed, (covered.logged.planned c logged).superseded mine⟩

/-- Deletes of one key twice by clients of loop 3, and of another by a client without a loop. -/
def deletes : List Request :=
  [⟨0, 0, 0, [1], .delete, some 3⟩, ⟨1, 0, 0, [1], .delete, some 3⟩, ⟨2, 0, 0, [2], .delete, none⟩]

/-- The first is dropped as a duplicate. The loop answers two of the batch, the completion thread the third. -/
def twoPaths : List Event :=
  let batch := deletes
  let first := deletes.take 2
  let last := deletes.drop 2
  let kept := deletes.drop 1
  let dropped := deletes.take 1
  let share (groups : List (Option ℕ × List Request)) (orphans : List Request) (begun : Bool) : Share :=
    ⟨groups, orphans, 7, begun⟩
  [.openNotifier, .writeDocs 0 batch true 5, .stamp 0 kept dropped 5 7, .group 0 (kept ++ dropped) batch 7,
    .loadHead 0 3 first (share [(none, last)] [] false), .casPush 0 3 first none (share [(none, last)] [] false),
    .addCount 0 3 2 (share [(none, last)] [] true), .register 0 3 (share [(none, last)] [] true),
    .orphan 0 last (share [] [] true), .handOrphans 0 (share [] last true), .addBytes 0 (share [] [] true),
    .bumpGen 0 true, .advance 7, .loadGen, .loadDurable 1, .lockLoops 1 7, .wakeLoad 1 7 3 [], .wakeExchange 1 7 3 [],
    .wakePost 1 7 3 [], .wakeDone 1 7, .drainEnter 3, .drainClear 3, .drainTake 3, .drainCheck 3, .drainLoad 3] ++
  (deletes.take 2).mapIdx (fun i r => .drainAnswer 3 r 7 i 0 i) ++
  [.drainEnd 3 7 2 0 2, .drainSub 3 2, .completeLoad 0, .completePop 0 7, .completePost 0 ⟨7, true, last⟩ []] ++
  last.map .answer

theorem durable_answers_two_paths : ∃ s, Reach (State.step ⟨.always, 0, id⟩) start s ∧
    (s.answers.map fun a => (a.req, a.success)) = deletes.map (fun r => (r, true)) ∧
    (s.answers.map Answer.req).Nodup ∧ ∀ a ∈ s.answers, ∃ b ∈ s.batches, a.req ∈ b.reqs := by
  obtain ⟨s, reached, answers⟩ : ∃ s, Reach (State.step ⟨.always, 0, id⟩) start s ∧
      (s.answers.map fun a => (a.req, a.success)) = deletes.map (fun r => (r, true)) :=
    exists_reach twoPaths (by decide +kernel)
  obtain ⟨covered, once⟩ := durable_answers_covered_once reached
  refine ⟨s, reached, answers, once, fun a member => (covered a member ?_).1⟩
  have seen := List.mem_map_of_mem (f := fun a : Answer => (a.req, a.success)) member
  rw [answers] at seen
  obtain ⟨r, _, same⟩ := List.mem_map.mp seen
  exact (congrArg Prod.snd same).symm

end State

end FluxKV.Durable
