import FluxKV.Engine.Pipeline
import Mathlib.Data.List.Count

/-! # Where every write is

Each write is in one place: in its handler, in its thread's chain, on its vbucket's queue, in a batch,
or done. The places are told apart by the request's own thread and vbucket, so the accounts below are
per request and need no sum over threads or vbuckets.
-/

namespace FluxKV.Engine

open Protocol Cache Counting Machine

/-- A thread handles requests of its own. -/
def IoPc.AtHome (t : ℕ) : IoPc → Prop
  | .handling r | .refused r => r.thread = t
  | .idle | .flushing => True

/-- The request a handler has put and not yet staged. -/
def IoPc.handled : IoPc → List Request
  | .handling r => [r]
  | .idle | .refused _ | .flushing => []

/-- The request a handler is about to erase. -/
def IoPc.spurned : IoPc → List Request
  | .refused r => [r]
  | .idle | .handling _ | .flushing => []

theorem IoPc.AtHome.handled {t : ℕ} {pc : IoPc} (home : pc.AtHome t) : ∀ r ∈ pc.handled, r.thread = t := by
  cases pc <;> simp_all [IoPc.handled, IoPc.AtHome]

theorem IoPc.AtHome.spurned {t : ℕ} {pc : IoPc} (home : pc.AtHome t) : ∀ r ∈ pc.spurned, r.thread = t := by
  cases pc <;> simp_all [IoPc.spurned, IoPc.AtHome]

def OfVbucket (vb : UInt16) (reqs : List Request) : Prop := ∀ r ∈ reqs, r.vbucket = vb

theorem OfVbucket.nil (vb : UInt16) : OfVbucket vb [] := fun _ member => (List.not_mem_nil member).elim

theorem OfVbucket.append {vb : UInt16} {first second : List Request} (left : OfVbucket vb first)
    (right : OfVbucket vb second) : OfVbucket vb (first ++ second) :=
  List.forall_mem_append.mpr ⟨left, right⟩

theorem OfVbucket.of_perm {vb : UInt16} {reqs reqs' : List Request} (home : OfVbucket vb reqs)
    (perm : reqs'.Perm reqs) : OfVbucket vb reqs' :=
  fun r member => home r (perm.mem_iff.mp member)

/-- A request of another vbucket is not among them. -/
theorem OfVbucket.count_eq_zero {vb : UInt16} {reqs : List Request} (home : OfVbucket vb reqs) {r : Request}
    (other : r.vbucket ≠ vb) : reqs.count r = 0 :=
  List.count_eq_zero.mpr fun member => other (home r member)

/-- A writer holds requests of its vbucket. -/
def Writer.AtHome (vb : UInt16) (w : Writer) : Prop :=
  OfVbucket vb w.batch ∧ OfVbucket vb (w.toMark.map Prod.fst)

/-- The requests of the batch that are still to be marked persisted, unless they are dropped. -/
def Writer.unmarked (w : Writer) : List Request :=
  match w.phase with
  | .swept => w.batch
  | .marking => w.toMark.map Prod.fst
  | .idle | .stamped | .parked => []

theorem Writer.AtHome.unmarked {vb : UInt16} {w : Writer} (home : w.AtHome vb) : OfVbucket vb w.unmarked := by
  unfold Writer.unmarked
  split
  · exact home.1
  · exact home.2
  all_goals exact .nil vb

/-- The batch, while it is swept and not written. -/
def Writer.unwritten (w : Writer) : List (List Request) :=
  match w.phase with
  | .swept => [w.batch]
  | .idle | .marking | .stamped | .parked => []

theorem Writer.mem_unmarked_of_unwritten {w : Writer} {r : Request} (unwritten : r ∈ w.unwritten.flatten) :
    r ∈ w.unmarked := by
  cases phase : w.phase <;> simp_all [Writer.unwritten, Writer.unmarked]

/-- The write an event puts into the cache. -/
def Event.puts : Event → List Request
  | .put r _ => [r]
  | _ => []

/-- The write it stages. -/
def Event.accepts : Event → List Request
  | .accept r => [r]
  | _ => []

/-- The write it refuses. -/
def Event.refuses : Event → List Request
  | .refuse r => [r]
  | _ => []

/-- The refused write it erases. -/
def Event.erases : Event → List Request
  | .erase r => [r]
  | _ => []

/-- The writer sweeps, writes or marks. -/
def Event.processes : Event → Bool
  | .sweep _ | .write _ _ | .mark _ _ _ => true
  | _ => false

namespace State

variable {cfg : Config} {s : State cfg} {e : Event}

/-- What is where belongs there. -/
structure Homes (s : State cfg) : Prop where
  pc : ∀ t, (s.pc t).AtHome t
  vbs : ∀ t vb, ∀ r ∈ s.vbs t vb, r.thread = t ∧ r.vbucket = vb
  list : ∀ vb, OfVbucket vb (s.list vb)
  writer : ∀ vb, (s.writer vb).AtHome vb

private theorem homes_pc (homes : s.Homes) (e : Event) : ∀ t, ((s.next e).pc t).AtHome t := by
  cases e with
  | put | refuse => exact forall_update (P := IoPc.AtHome) rfl homes.pc
  | accept | erase | charge | flushed => exact forall_update (P := IoPc.AtHome) trivial homes.pc
  | _ => exact homes.pc

private theorem homes_vbs (homes : s.Homes) (e : Event) :
    ∀ t vb, ∀ r ∈ (s.next e).vbs t vb, r.thread = t ∧ r.vbucket = vb := by
  cases e with
  | accept w =>
    intro t vb r member
    simp only [next, update_update_apply] at member
    split at member
    · next here =>
      rcases List.mem_cons.mp member with rfl | member
      · exact ⟨here.1.symm, here.2.symm⟩
      · rw [here.1, here.2]
        exact homes.vbs _ _ r member
    · exact homes.vbs t vb r member
  | push t' vb' =>
    intro t vb r member
    simp only [next, update_update_apply] at member
    split at member
    · exact (List.not_mem_nil member).elim
    · exact homes.vbs t vb r member
  | _ => exact homes.vbs

private theorem homes_list (homes : s.Homes) (e : Event) : ∀ vb, OfVbucket vb ((s.next e).list vb) := by
  cases e with
  | push t vb =>
    exact forall_update (P := OfVbucket)
      (.append (fun r member => (homes.vbs t vb r member).2) (homes.list vb)) homes.list
  | sweep vb => exact forall_update (P := OfVbucket) (.nil vb) homes.list
  | _ => exact homes.list

private theorem homes_writer (homes : s.Homes) (e : Event) :
    ∀ vb, ((s.next e).writer vb).AtHome vb := by
  have idle (vb : UInt16) : Writer.idle.AtHome vb := ⟨.nil vb, .nil vb⟩
  cases e with
  | sweep vb =>
    exact forall_update (P := Writer.AtHome)
      ⟨(homes.list vb).of_perm (List.reverse_perm _), .nil vb⟩ homes.writer
  | write vb ok =>
    have whole := (homes.writer vb).1.of_perm (planBatch_perm cfg.batchSort cfg.sortDupThreshold _)
    refine forall_update (P := Writer.AtHome) ⟨whole, ?_⟩ homes.writer
    rw [assignSeqnos_map_fst]
    exact fun r member => whole r (List.mem_append_left _ member)
  | mark vb r seqno =>
    refine forall_update (P := Writer.AtHome) ⟨(homes.writer vb).1, ?_⟩ homes.writer
    exact fun w member => (homes.writer vb).2 w (List.mem_of_mem_tail (List.map_tail ▸ member))
  | trim vb | stamp vb | park vb => exact forall_update (P := Writer.AtHome) (homes.writer vb) homes.writer
  | settle vb | addBytes vb | awaitDurable vb => exact forall_update (P := Writer.AtHome) (idle vb) homes.writer
  | _ => exact homes.writer

theorem Homes.next (homes : s.Homes) (e : Event) : (s.next e).Homes :=
  ⟨homes_pc homes e, homes_vbs homes e, homes_list homes e, homes_writer homes e⟩

theorem Homes.initial (maxBytes : ℕ) (store : UInt16 → Store) (seqnos : UInt16 → ℕ) :
    (State.initial cfg maxBytes store seqnos).Homes :=
  ⟨fun _ => trivial, fun _ _ _ member => (List.not_mem_nil member).elim, fun vb => .nil vb,
    fun vb => ⟨.nil vb, .nil vb⟩⟩

/-- Nothing else changes what a writer has left to write or to mark. -/
theorem writer_next (able : s.enabled e) (other : e.processes = false) (vb : UInt16) :
    ((s.next e).writer vb).unmarked = (s.writer vb).unmarked ∧
      ((s.next e).writer vb).unwritten = (s.writer vb).unwritten := by
  have keep {vb' : UInt16} {w : Writer} (unmarked : w.unmarked = (s.writer vb').unmarked)
      (unwritten : w.unwritten = (s.writer vb').unwritten) :
      (Function.update s.writer vb' w vb).unmarked = (s.writer vb).unmarked ∧
        (Function.update s.writer vb' w vb).unwritten = (s.writer vb).unwritten := by
    by_cases same : vb = vb'
    · subst same
      simp [unmarked, unwritten]
    · simp [same]
  cases e with
  | sweep | write | mark => cases other
  | trim vb key => exact keep rfl rfl
  | settle vb =>
    obtain ⟨⟨phase, marked, _⟩, _⟩ := of_decide_eq_true able
    apply keep <;> simp [Writer.unmarked, Writer.unwritten, phase, marked, Writer.idle]
  | stamp vb lsn =>
    obtain ⟨⟨phase, marked, _⟩, _⟩ := of_decide_eq_true able
    apply keep <;> simp [Writer.unmarked, Writer.unwritten, phase, marked]
  | park vb =>
    obtain ⟨phase, _⟩ := of_decide_eq_true able
    apply keep <;> simp [Writer.unmarked, Writer.unwritten, phase]
  | addBytes vb =>
    have phase := of_decide_eq_true able
    apply keep <;> simp [Writer.unmarked, Writer.unwritten, phase, Writer.idle]
  | awaitDurable vb =>
    obtain ⟨phase, _⟩ := of_decide_eq_true able
    apply keep <;> simp [Writer.unmarked, Writer.unwritten, phase, Writer.idle]
  | _ => exact ⟨rfl, rfl⟩

/-- The account of every write, from its put to its last `MarkPersisted`. -/
structure Accounts (s : State cfg) : Prop where
  ids : ∀ r ∈ s.hist.puts, r.id < s.hist.nextId
  puts : s.hist.puts.Nodup
  accepted : ∀ r, s.hist.accepted.count r + (s.pc r.thread).handled.count r + (s.pc r.thread).spurned.count r ≤
    s.hist.puts.count r
  refused : ∀ r, s.hist.refused.count r = (s.pc r.thread).spurned.count r
  unpushed : ∀ r, r ∈ s.hist.unpushed ↔ r ∈ (s.pc r.thread).handled ∨ r ∈ s.vbs r.thread r.vbucket
  staged : ∀ r, s.hist.accepted.count r = (s.vbs r.thread r.vbucket).count r + s.hist.flushed.count r
  flushed : ∀ r, s.hist.flushed.count r = (s.list r.vbucket).count r + (s.hist.swept r.vbucket).flatten.count r
  swept : ∀ vb, s.hist.swept vb = s.hist.handed vb ++ (s.writer vb).unwritten
  marked : ∀ r, (s.hist.swept r.vbucket).flatten.count r =
    (s.writer r.vbucket).unmarked.count r + s.hist.dropped.count r + s.hist.marked.count r
  pins : ∀ r, s.hist.pins.count r = (s.pc r.thread).handled.count r + (s.pc r.thread).spurned.count r +
    (s.vbs r.thread r.vbucket).count r + (s.list r.vbucket).count r + (s.writer r.vbucket).unmarked.count r +
    s.hist.dropped.count r

section Moves

variable (homes : s.Homes) (r : Request)
include homes

theorem vbs_update (t : ℕ) (vb : UInt16) (chain : List Request) (home : ∀ w ∈ chain, w.thread = t ∧ w.vbucket = vb) :
    (Function.update s.vbs t (Function.update (s.vbs t) vb chain) r.thread r.vbucket).count r +
        (s.vbs t vb).count r = (s.vbs r.thread r.vbucket).count r + chain.count r :=
  count_update_update Request.thread Request.vbucket s.vbs t vb chain r (homes.vbs t vb) home

theorem list_update (vb : UInt16) (reqs : List Request) (home : OfVbucket vb reqs) :
    (Function.update s.list vb reqs r.vbucket).count r + (s.list vb).count r =
      (s.list r.vbucket).count r + reqs.count r :=
  count_update id Request.vbucket s.list vb reqs r (homes.list vb) home

theorem unmarked_update (vb : UInt16) (w : Writer) (home : w.AtHome vb) :
    (Function.update s.writer vb w r.vbucket).unmarked.count r + (s.writer vb).unmarked.count r =
      (s.writer r.vbucket).unmarked.count r + w.unmarked.count r :=
  count_update Writer.unmarked Request.vbucket s.writer vb w r (homes.writer vb).unmarked home.unmarked

/-- A handler takes a request up with its put and passes it on staged or refused; a refused one it erases. -/
private theorem pc_next (able : s.enabled e) :
    ((s.next e).pc r.thread).handled.count r + (e.accepts ++ e.refuses).count r =
        (s.pc r.thread).handled.count r + e.puts.count r ∧
      ((s.next e).pc r.thread).spurned.count r + e.erases.count r =
        (s.pc r.thread).spurned.count r + e.refuses.count r := by
  have moved : ∀ {t : ℕ} {old pc : IoPc}, s.pc t = old → pc.AtHome t →
      (Function.update s.pc t pc r.thread).handled.count r + old.handled.count r =
          (s.pc r.thread).handled.count r + pc.handled.count r ∧
        (Function.update s.pc t pc r.thread).spurned.count r + old.spurned.count r =
          (s.pc r.thread).spurned.count r + pc.spurned.count r := by
    rintro t _ pc rfl home
    exact ⟨count_update IoPc.handled Request.thread s.pc t pc r (homes.pc t).handled home.handled,
      count_update IoPc.spurned Request.thread s.pc t pc r (homes.pc t).spurned home.spurned⟩
  cases e with
  | put | refuse => exact moved (of_decide_eq_true able).1 rfl
  | accept | flushed => exact moved (of_decide_eq_true able).1 trivial
  | erase | charge => exact moved (of_decide_eq_true able) trivial
  | _ => exact ⟨rfl, rfl⟩

theorem handled_next (able : s.enabled e) :
    ((s.next e).pc r.thread).handled.count r + (e.accepts ++ e.refuses).count r =
      (s.pc r.thread).handled.count r + e.puts.count r :=
  (pc_next homes r able).1

theorem spurned_next (able : s.enabled e) :
    ((s.next e).pc r.thread).spurned.count r + e.erases.count r =
      (s.pc r.thread).spurned.count r + e.refuses.count r :=
  (pc_next homes r able).2

theorem vbs_accept (w : Request) :
    ((s.next (.accept w)).vbs r.thread r.vbucket).count r = (s.vbs r.thread r.vbucket).count r + [w].count r := by
  have moved := vbs_update homes r w.thread w.vbucket (w :: s.vbs w.thread w.vbucket)
    (List.forall_mem_cons.mpr ⟨⟨rfl, rfl⟩, homes.vbs _ _⟩)
  rw [List.count_cons] at moved
  rw [List.count_singleton]
  simp only [next]
  omega

theorem vbs_push (t : ℕ) (vb : UInt16) :
    ((s.next (.push t vb)).vbs r.thread r.vbucket).count r + (s.vbs t vb).count r =
      (s.vbs r.thread r.vbucket).count r :=
  vbs_update homes r t vb [] fun _ member => (List.not_mem_nil member).elim

theorem list_push (t : ℕ) (vb : UInt16) :
    ((s.next (.push t vb)).list r.vbucket).count r = (s.list r.vbucket).count r + (s.vbs t vb).count r := by
  have moved := list_update homes r vb (s.vbs t vb ++ s.list vb)
    (.append (fun w member => (homes.vbs t vb w member).2) (homes.list vb))
  rw [List.count_append] at moved
  simp only [next]
  omega

theorem list_sweep (vb : UInt16) :
    ((s.next (.sweep vb)).list r.vbucket).count r + (s.list vb).count r = (s.list r.vbucket).count r :=
  list_update homes r vb [] (.nil vb)

end Moves

theorem hist_puts_next (e : Event) : (s.next e).hist.puts = s.hist.puts ++ e.puts := by
  cases e <;> first | rfl | exact (List.append_nil _).symm

theorem hist_accepted_next (e : Event) : (s.next e).hist.accepted = s.hist.accepted ++ e.accepts := by
  cases e <;> first | rfl | exact (List.append_nil _).symm

private theorem accepted_next (homes : s.Homes) (accounts : s.Accounts) (able : s.enabled e) (r : Request) :
    (s.next e).hist.accepted.count r + ((s.next e).pc r.thread).handled.count r +
      ((s.next e).pc r.thread).spurned.count r ≤ (s.next e).hist.puts.count r := by
  have before := accounts.accepted r
  have handled := handled_next homes r able
  have spurned := spurned_next homes r able
  rw [hist_puts_next, hist_accepted_next]
  simp only [List.count_append] at handled ⊢
  omega

private theorem count_erase_singleton (l : List Request) (w r : Request) :
    (l.erase w).count r = l.count r - [w].count r := by
  rw [List.count_erase, List.count_singleton]

private theorem refused_next (homes : s.Homes) (accounts : s.Accounts) (able : s.enabled e) (r : Request) :
    (s.next e).hist.refused.count r = ((s.next e).pc r.thread).spurned.count r := by
  have before := accounts.refused r
  have spurned := spurned_next homes r able
  cases e with
  | put w cap | accept w | charge t | flushed t =>
    simp only [Event.refuses, Event.erases, List.count_nil, Nat.add_zero] at spurned
    rw [spurned]
    exact before
  | refuse w =>
    simp only [next, Event.refuses, Event.erases, List.count_nil, List.count_append] at spurned ⊢
    omega
  | erase w =>
    simp only [next, Event.refuses, Event.erases, List.count_nil, count_erase_singleton] at spurned ⊢
    omega
  | _ => exact before

/-- A refused write leaves its handler, and it was nowhere else. -/
private theorem unpushed_refuse (homes : s.Homes) (accounts : s.Accounts) {w : Request}
    (able : s.enabled (.refuse w)) (r : Request) :
    r ∈ (s.next (.refuse w)).hist.unpushed ↔
      r ∈ ((s.next (.refuse w)).pc r.thread).handled ∨ r ∈ (s.next (.refuse w)).vbs r.thread r.vbucket := by
  obtain ⟨handling, _⟩ := of_decide_eq_true able
  simp only [next, List.mem_filter, decide_eq_true_eq, accounts.unpushed r]
  by_cases same : r = w
  · subst same
    have one : (s.pc r.thread).handled.count r = 1 := by rw [handling]; exact List.count_singleton_self
    have unstaged : (s.vbs r.thread r.vbucket).count r = 0 := by
      have := accounts.accepted r
      have := accounts.staged r
      have := List.nodup_iff_count_le_one.mp accounts.puts r
      omega
    simp [List.count_eq_zero.mp unstaged, IoPc.handled]
  · have handled := handled_next homes r able
    have other : [w].count r = 0 := List.count_eq_zero.mpr fun member => same (List.mem_singleton.mp member)
    simp only [next, Event.puts, Event.accepts, Event.refuses, List.nil_append, List.count_nil, other] at handled
    rw [mem_iff_of_count_eq (Nat.add_right_cancel handled)]
    exact and_iff_left same

/-- A pushed chain leaves the staging table of its thread, which handles nothing while it flushes. -/
private theorem unpushed_push (homes : s.Homes) (accounts : s.Accounts) {t : ℕ} {vb : UInt16}
    (able : s.enabled (.push t vb)) (r : Request) :
    r ∈ (s.next (.push t vb)).hist.unpushed ↔
      r ∈ ((s.next (.push t vb)).pc r.thread).handled ∨ r ∈ (s.next (.push t vb)).vbs r.thread r.vbucket := by
  obtain ⟨flushing, _⟩ := of_decide_eq_true able
  simp only [next, List.mem_filter, decide_eq_true_eq, accounts.unpushed r, update_update_apply]
  by_cases member : r ∈ s.vbs t vb
  · obtain ⟨rfl, rfl⟩ := homes.vbs t vb r member
    simp [member, flushing, IoPc.handled]
  · rw [and_iff_left member]
    by_cases here : r.thread = t ∧ r.vbucket = vb
    · obtain ⟨rfl, rfl⟩ := here
      simp [member]
    · rw [if_neg here]

private theorem unpushed_next (homes : s.Homes) (accounts : s.Accounts) (able : s.enabled e) (r : Request) :
    r ∈ (s.next e).hist.unpushed ↔
      r ∈ ((s.next e).pc r.thread).handled ∨ r ∈ (s.next e).vbs r.thread r.vbucket := by
  have before := accounts.unpushed r
  have handled := handled_next homes r able
  cases e with
  | put w cap =>
    simp only [Event.puts, Event.accepts, Event.refuses, List.append_nil, List.count_nil, Nat.add_zero] at handled
    rw [← List.count_pos_iff (l := IoPc.handled _), handled, Nat.add_pos_iff_pos_or_pos, List.count_pos_iff,
      List.count_pos_iff]
    simp only [next, List.mem_append, before]
    exact or_right_comm
  | accept w =>
    rw [← List.count_pos_iff (l := IoPc.handled _), ← List.count_pos_iff (l := (s.next (.accept w)).vbs _ _),
      vbs_accept homes]
    rw [← List.count_pos_iff (l := IoPc.handled _), ← List.count_pos_iff (l := s.vbs _ _)] at before
    simp only [Event.puts, Event.accepts, Event.refuses, List.append_nil, List.count_nil, Nat.add_zero] at handled
    change r ∈ s.hist.unpushed ↔ _
    rw [before]
    omega
  | refuse w => exact unpushed_refuse homes accounts able r
  | erase w | charge t | flushed t =>
    simp only [Event.puts, Event.accepts, Event.refuses, List.append_nil, List.count_nil, Nat.add_zero] at handled
    rw [mem_iff_of_count_eq handled]
    exact before
  | push t vb => exact unpushed_push homes accounts able r
  | _ => exact before

private theorem staged_next (homes : s.Homes) (accounts : s.Accounts) (r : Request) :
    (s.next e).hist.accepted.count r =
      ((s.next e).vbs r.thread r.vbucket).count r + (s.next e).hist.flushed.count r := by
  have before := accounts.staged r
  cases e with
  | accept w =>
    rw [vbs_accept homes]
    simp only [next, List.count_append]
    omega
  | push t vb =>
    have moved := vbs_push homes r t vb
    simp only [next, List.count_append] at moved ⊢
    omega
  | _ => exact before

private theorem flushed_next (homes : s.Homes) (accounts : s.Accounts) (r : Request) :
    (s.next e).hist.flushed.count r =
      ((s.next e).list r.vbucket).count r + ((s.next e).hist.swept r.vbucket).flatten.count r := by
  have before := accounts.flushed r
  cases e with
  | push t vb =>
    rw [list_push homes]
    simp only [next, List.count_append]
    omega
  | sweep vb =>
    have moved := list_sweep homes r vb
    by_cases same : r.vbucket = vb
    · subst same
      simp only [next, Function.update_self, List.flatten_append, List.flatten_singleton, List.count_append,
        List.count_reverse] at moved ⊢
      omega
    · simp only [next, Function.update_of_ne same]
      omega
  | _ => exact before

private theorem swept_next (accounts : s.Accounts) (able : s.enabled e) (vb : UInt16) :
    (s.next e).hist.swept vb = (s.next e).hist.handed vb ++ ((s.next e).writer vb).unwritten := by
  have before := accounts.swept vb
  cases e with
  | sweep vb' =>
    obtain ⟨phase, _⟩ := of_decide_eq_true able
    by_cases same : vb = vb'
    · subst same
      simp only [Writer.unwritten, phase, List.append_nil] at before
      simp only [next, Function.update_self, Writer.unwritten, before]
    · simp only [next, Function.update_of_ne same, before]
  | write vb' ok =>
    have phase : (s.writer vb').phase = .swept := of_decide_eq_true able
    by_cases same : vb = vb'
    · subst same
      simp only [Writer.unwritten, phase] at before
      simp only [next, Function.update_self, Writer.unwritten, before, List.append_nil]
    · simp only [next, Function.update_of_ne same, before]
  | mark vb' w seqno =>
    obtain ⟨phase, _⟩ := of_decide_eq_true able
    by_cases same : vb = vb'
    · subst same
      simp only [Writer.unwritten, phase] at before
      simp only [next, Function.update_self, Writer.unwritten, phase, before]
    · simp only [next, Function.update_of_ne same, before]
  | trim _ _ | settle _ | stamp _ _ | park _ | addBytes _ | awaitDurable _ =>
    rw [(writer_next able rfl vb).2]
    exact before
  | _ => exact before

section Writers

variable (homes : s.Homes) (r : Request)
include homes

theorem unmarked_sweep {vb : UInt16} (able : s.enabled (.sweep vb)) :
    ((s.next (.sweep vb)).writer r.vbucket).unmarked.count r =
      (s.writer r.vbucket).unmarked.count r + (s.list vb).count r := by
  obtain ⟨phase, _⟩ := of_decide_eq_true able
  have moved := unmarked_update homes r vb { Writer.idle with phase := .swept, batch := (s.list vb).reverse }
    ⟨(homes.list vb).of_perm (List.reverse_perm _), .nil vb⟩
  simp only [Writer.unmarked, phase, List.count_nil, List.count_reverse, Nat.add_zero] at moved
  exact moved

theorem swept_sweep (vb : UInt16) :
    ((s.next (.sweep vb)).hist.swept r.vbucket).flatten.count r =
      (s.hist.swept r.vbucket).flatten.count r + (s.list vb).count r := by
  by_cases same : r.vbucket = vb
  · subst same
    simp [next]
  · simp [next, same, (homes.list vb).count_eq_zero same]

/-- A write leaves the kept requests to be marked and drops the others. -/
theorem unmarked_write {vb : UInt16} {ok : Bool} (able : s.enabled (.write vb ok)) :
    ((s.next (.write vb ok)).writer r.vbucket).unmarked.count r + (s.next (.write vb ok)).hist.dropped.count r =
      (s.writer r.vbucket).unmarked.count r + s.hist.dropped.count r := by
  have phase : (s.writer vb).phase = .swept := of_decide_eq_true able
  have perm := planBatch_perm cfg.batchSort cfg.sortDupThreshold (s.writer vb).batch
  have whole := perm.count_eq r
  have after : ((s.next (.write vb ok)).writer vb).AtHome vb := (homes.next _).writer vb
  have moved := unmarked_update homes r vb ((s.next (.write vb ok)).writer vb) after
  simp only [next, Function.update_self, Writer.unmarked, phase, assignSeqnos_map_fst] at moved
  simp only [next, Writer.unmarked, List.count_append] at whole ⊢
  omega

/-- A mark takes the first request off the list. -/
theorem unmarked_mark {vb : UInt16} {w : Request} {seqno : ℕ} (able : s.enabled (.mark vb w seqno)) :
    ((s.next (.mark vb w seqno)).writer r.vbucket).unmarked.count r + [w].count r =
      (s.writer r.vbucket).unmarked.count r := by
  obtain ⟨phase, _, head⟩ := of_decide_eq_true able
  have after : ((s.next (.mark vb w seqno)).writer vb).AtHome vb := (homes.next _).writer vb
  have moved := unmarked_update homes r vb ((s.next (.mark vb w seqno)).writer vb) after
  have split : (s.writer vb).toMark = (w, seqno) :: (s.writer vb).toMark.tail := (List.cons_head?_tail head).symm
  have before : (s.writer vb).unmarked.count r =
      ((s.writer vb).toMark.tail.map Prod.fst).count r + [w].count r := by
    simp only [Writer.unmarked, phase]
    rw [split]
    simp only [List.map_cons, List.tail_cons, List.count_cons, List.count_nil, Nat.zero_add]
  have left : ((s.next (.mark vb w seqno)).writer vb).unmarked = (s.writer vb).toMark.tail.map Prod.fst := by
    simp only [next, Function.update_self, Writer.unmarked, phase]
  rw [left] at moved
  simp only [next, Function.update_self] at moved ⊢
  omega

end Writers

private theorem marked_next (homes : s.Homes) (accounts : s.Accounts) (able : s.enabled e) (r : Request) :
    ((s.next e).hist.swept r.vbucket).flatten.count r = ((s.next e).writer r.vbucket).unmarked.count r +
      (s.next e).hist.dropped.count r + (s.next e).hist.marked.count r := by
  have before := accounts.marked r
  cases e with
  | sweep vb =>
    rw [unmarked_sweep homes r able, swept_sweep homes]
    simp only [next]
    omega
  | write vb ok =>
    rw [unmarked_write homes r able]
    exact before
  | mark vb w seqno =>
    have moved := unmarked_mark homes r able
    have history : (s.next (.mark vb w seqno)).hist.marked = s.hist.marked ++ [w] := rfl
    rw [history, List.count_append]
    change (s.hist.swept r.vbucket).flatten.count r = _ + s.hist.dropped.count r + _
    omega
  | trim _ _ | settle _ | stamp _ _ | park _ | addBytes _ | awaitDurable _ =>
    rw [(writer_next able rfl r.vbucket).1]
    exact before
  | _ => exact before

private theorem pins_next (homes : s.Homes) (accounts : s.Accounts) (able : s.enabled e) (r : Request) :
    (s.next e).hist.pins.count r = ((s.next e).pc r.thread).handled.count r +
      ((s.next e).pc r.thread).spurned.count r + ((s.next e).vbs r.thread r.vbucket).count r +
      ((s.next e).list r.vbucket).count r + ((s.next e).writer r.vbucket).unmarked.count r +
      (s.next e).hist.dropped.count r := by
  have before := accounts.pins r
  have handled := handled_next homes r able
  have spurned := spurned_next homes r able
  cases e with
  | put w cap =>
    simp only [next, Event.puts, Event.accepts, Event.refuses, Event.erases, List.append_nil, List.count_nil,
      List.count_append] at handled spurned ⊢
    omega
  | accept w =>
    rw [vbs_accept homes]
    simp only [next, Event.puts, Event.accepts, Event.refuses, Event.erases, List.append_nil,
      List.count_nil] at handled spurned ⊢
    omega
  | refuse w =>
    simp only [next, Event.puts, Event.accepts, Event.refuses, Event.erases, List.nil_append,
      List.count_nil] at handled spurned ⊢
    omega
  | erase w =>
    simp only [next, Event.puts, Event.accepts, Event.refuses, Event.erases, List.append_nil, List.count_nil,
      count_erase_singleton] at handled spurned ⊢
    omega
  | charge t | flushed t =>
    simp only [next, Event.puts, Event.accepts, Event.refuses, Event.erases, List.append_nil,
      List.count_nil] at handled spurned ⊢
    omega
  | push t vb =>
    have chain := vbs_push homes r t vb
    rw [list_push homes]
    simp only [next] at chain ⊢
    omega
  | sweep vb =>
    have moved := list_sweep homes r vb
    rw [unmarked_sweep homes r able]
    simp only [next] at moved ⊢
    omega
  | write vb ok =>
    have moved := unmarked_write homes r able
    simp only [next] at moved ⊢
    omega
  | mark vb w seqno =>
    have moved := unmarked_mark homes r able
    simp only [next, count_erase_singleton] at moved ⊢
    omega
  | trim _ _ | settle _ | stamp _ _ | park _ | addBytes _ | awaitDurable _ =>
    rw [(writer_next able rfl r.vbucket).1]
    exact before
  | _ => exact before

private theorem ids_next (accounts : s.Accounts) (able : s.enabled e) :
    (∀ r ∈ (s.next e).hist.puts, r.id < (s.next e).hist.nextId) ∧ (s.next e).hist.puts.Nodup := by
  cases e with
  | put w cap =>
    obtain ⟨_, fresh, _⟩ := of_decide_eq_true able
    have bound : ∀ r ∈ s.hist.puts, r.id < s.hist.nextId := accounts.ids
    refine ⟨fun r member => ?_, ?_⟩
    · rcases List.mem_append.mp member with member | member
      · exact Nat.lt_succ_of_lt (bound r member)
      · obtain rfl := List.mem_singleton.mp member
        exact fresh ▸ Nat.lt_succ_self _
    · refine List.Nodup.append accounts.puts (List.nodup_singleton w) (List.disjoint_singleton.mpr fun member => ?_)
      have := bound w member
      omega
  | _ => exact ⟨accounts.ids, accounts.puts⟩

theorem Accounts.next (homes : s.Homes) (accounts : s.Accounts) (able : s.enabled e) : (s.next e).Accounts where
  ids := (ids_next accounts able).1
  puts := (ids_next accounts able).2
  accepted := accepted_next homes accounts able
  refused := refused_next homes accounts able
  unpushed := unpushed_next homes accounts able
  staged := staged_next homes accounts
  flushed := flushed_next homes accounts
  swept := swept_next accounts able
  marked := marked_next homes accounts able
  pins := pins_next homes accounts able

theorem Accounts.initial (maxBytes : ℕ) (store : UInt16 → Store) (seqnos : UInt16 → ℕ) :
    (State.initial cfg maxBytes store seqnos).Accounts where
  ids _ member := (List.not_mem_nil member).elim
  puts := List.nodup_nil
  accepted _ := Nat.le_refl 0
  refused _ := rfl
  unpushed _ := by simp [State.initial, History.empty, IoPc.handled]
  staged _ := rfl
  flushed _ := rfl
  swept _ := rfl
  marked _ := rfl
  pins _ := rfl

/-- What holds wherever a tape leads. -/
structure Flow (s : State cfg) : Prop where
  homes : s.Homes
  accounts : s.Accounts

theorem Flow.initial (maxBytes : ℕ) (store : UInt16 → Store) (seqnos : UInt16 → ℕ) :
    (State.initial cfg maxBytes store seqnos).Flow :=
  ⟨.initial maxBytes store seqnos, .initial maxBytes store seqnos⟩

theorem Flow.step {t : State cfg} (flow : s.Flow) (taken : s.step e = some t) : t.Flow := by
  obtain ⟨able, rfl⟩ := step_eq_some.mp taken
  exact ⟨flow.homes.next e, flow.accounts.next flow.homes able⟩

end State

end FluxKV.Engine
