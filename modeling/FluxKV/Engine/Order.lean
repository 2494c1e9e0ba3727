import FluxKV.Engine.Flow
import FluxKV.ToMathlib.ListOrder

/-! # The order of a vbucket's writes

A chain is built newest first, pushed whole onto a newest-first stack, taken off by one exchange and
reversed, so the batches of a vbucket, one after the other, hold each thread's writes in the order the
thread staged them. Seqnos rise along the batches and, within a batch, with the writes of a key.
-/

namespace FluxKV.Engine

open Protocol Cache Counting Machine ListOrder

namespace State

variable {cfg : Config} {s : State cfg} {e : Event}

/-- The writes pushed onto a vbucket queue, in the order they are or will be written. -/
def line (s : State cfg) (vb : UInt16) : List Request := (s.hist.swept vb).flatten ++ (s.list vb).reverse

/-- The writes a thread staged for a vbucket, in order. -/
def stagedBy (s : State cfg) (t : ℕ) (vb : UInt16) : List Request :=
  s.hist.accepted.filter fun r => r.thread = t ∧ r.vbucket = vb

/-- What a thread staged is what it pushed, followed by what it has not. -/
def InOrder (s : State cfg) : Prop :=
  ∀ t vb, (s.line vb).filter (fun r => r.thread = t) ++ (s.vbs t vb).reverse = s.stagedBy t vb

private theorem inOrder_accept (ordered : s.InOrder) (w : Request) : (s.next (.accept w)).InOrder := by
  intro t vb
  have before := ordered t vb
  simp only [line, stagedBy] at before
  simp only [line, stagedBy, next, update_update_apply, List.filter_append]
  split
  · next here =>
    obtain ⟨rfl, rfl⟩ := here
    have taken : [w].filter (fun r => r.thread = w.thread ∧ r.vbucket = w.vbucket) = [w] := by simp
    rw [taken, ← before, List.filter_append, List.reverse_cons, List.append_assoc, List.append_assoc,
      List.append_assoc]
  · next other =>
    have skipped : [w].filter (fun r => r.thread = t ∧ r.vbucket = vb) = [] := by
      simp only [List.filter_eq_nil_iff, List.mem_singleton, forall_eq, decide_eq_true_eq]
      exact fun here => other ⟨here.1.symm, here.2.symm⟩
    rw [skipped, List.append_nil, ← before, List.filter_append]

theorem line_push (t : ℕ) (vb vb' : UInt16) : (s.next (.push t vb)).line vb' =
    if vb' = vb then s.line vb ++ (s.vbs t vb).reverse else s.line vb' := by
  by_cases same : vb' = vb
  · subst same
    simp [line, next]
  · simp [line, next, same]

private theorem inOrder_push (homes : s.Homes) (ordered : s.InOrder) (t' : ℕ) (vb' : UInt16) :
    (s.next (.push t' vb')).InOrder := by
  intro t vb
  rw [line_push]
  change _ = s.stagedBy t vb
  rw [← ordered t vb]
  simp only [next, update_update_apply]
  by_cases here : vb = vb'
  · subst here
    rw [if_pos rfl, List.filter_append]
    by_cases own : t = t'
    · subst own
      have chain : (s.vbs t vb).reverse.filter (fun r => r.thread = t) = (s.vbs t vb).reverse := by
        apply List.filter_eq_self.mpr
        intro r member
        simpa using (homes.vbs t vb r (List.mem_reverse.mp member)).1
      rw [chain, if_pos ⟨rfl, rfl⟩, List.reverse_nil, List.append_nil]
    · have chain : (s.vbs t' vb).reverse.filter (fun r => r.thread = t) = [] := by
        apply List.filter_eq_nil_iff.mpr
        intro r member
        have thread := (homes.vbs t' vb r (List.mem_reverse.mp member)).1
        simpa [thread] using Ne.symm own
      rw [chain, if_neg fun both => own both.1, List.append_nil]
  · rw [if_neg here, if_neg fun both => here both.2]

theorem line_sweep (vb vb' : UInt16) : (s.next (.sweep vb)).line vb' = s.line vb' := by
  by_cases same : vb' = vb
  · subst same
    simp [line, next]
  · simp [line, next, same]

theorem InOrder.next (homes : s.Homes) (ordered : s.InOrder) (e : Event) : (s.next e).InOrder := by
  cases e with
  | accept w => exact inOrder_accept ordered w
  | push t vb => exact inOrder_push homes ordered t vb
  | sweep vb =>
    intro t vb'
    rw [line_sweep]
    exact ordered t vb'
  | _ => exact ordered

end State

/-- The seqnos a vbucket has assigned, the batches they were assigned to, and the last of them. -/
structure Sequenced (assigned : List (Request × ℕ)) (handed : List (List Request)) (seqno : ℕ) : Prop where
  rising : assigned.Pairwise fun a b => a.2 < b.2
  bounded : ∀ op ∈ assigned, op.2 ≤ seqno
  arrival : ∀ key, ((assigned.map Prod.fst).filter fun r => r.key = key).Sublist
    (handed.flatten.filter fun r => r.key = key)
  superseded : ∀ batch ∈ handed, ∀ r ∈ batch, r ∈ assigned.map Prod.fst ∨
    ∃ w ∈ assigned.map Prod.fst, w.key = r.key ∧ [r, w].Sublist batch

/-- One more batch is written. -/
theorem Sequenced.append {assigned : List (Request × ℕ)} {handed : List (List Request)} {seqno : ℕ}
    (sequenced : Sequenced assigned handed seqno) (mode : BatchSort) (threshold : ℚ) (batch : List Request) :
    Sequenced (assigned ++ assignSeqnos seqno (planBatch mode threshold batch).1) (handed ++ [batch])
      (seqno + (planBatch mode threshold batch).1.length) where
  rising := by
    refine List.pairwise_append.mpr ⟨sequenced.rising, assignSeqnos_pairwise .., fun op old op' new => ?_⟩
    have := sequenced.bounded op old
    have := mem_assignSeqnos_bounds new
    omega
  bounded op member := by
    rcases List.mem_append.mp member with old | new
    · have := sequenced.bounded op old
      omega
    · exact (mem_assignSeqnos_bounds new).2
  arrival key := by
    rw [List.map_append, assignSeqnos_map_fst, List.filter_append, List.flatten_append, List.filter_append,
      List.flatten_singleton]
    exact (sequenced.arrival key).append (planBatch_filter_sublist ..)
  superseded other member r inBatch := by
    rw [List.map_append, assignSeqnos_map_fst]
    rcases List.mem_append.mp member with old | new
    · rcases sequenced.superseded other old r inBatch with kept | ⟨w, kept, pair⟩
      · exact .inl (List.mem_append_left _ kept)
      · exact .inr ⟨w, List.mem_append_left _ kept, pair⟩
    · obtain rfl := List.mem_singleton.mp new
      rcases planBatch_superseded mode threshold other inBatch with kept | ⟨w, kept, pair⟩
      · exact .inl (List.mem_append_right _ kept)
      · exact .inr ⟨w, List.mem_append_right _ kept, pair⟩

/-- Writes of one key get their seqnos in the order they were handed over. -/
theorem Sequenced.seqno_lt {assigned : List (Request × ℕ)} {handed : List (List Request)} {seqno : ℕ}
    (sequenced : Sequenced assigned handed seqno) (distinct : handed.flatten.Nodup) {a b : Request} {sa sb : ℕ}
    (order : [a, b].Sublist handed.flatten) (same : a.key = b.key) (first : (a, sa) ∈ assigned)
    (second : (b, sb) ∈ assigned) : sa < sb := by
  have differ : a ≠ b := by
    rintro rfl
    exact not_pair_swap distinct order order
  rcases pair_sublist_or first second fun equal => differ (congrArg Prod.fst equal) with forth | back
  · exact rank_lt_of_pair sequenced.rising forth
  · have swapped : [b, a].Sublist (handed.flatten.filter fun r => r.key = a.key) := by
      have mapped := (back.map Prod.fst).filter fun r => r.key = a.key
      simp only [List.map_cons, List.map_nil, List.filter_cons, same, decide_true, if_true, List.filter_nil] at mapped
      exact (same ▸ mapped).trans (sequenced.arrival a.key)
    exact (not_pair_swap distinct order (swapped.trans List.filter_sublist)).elim

namespace State

variable {cfg : Config} {s : State cfg} {e : Event}

/-- Every vbucket keeps its seqnos in order. -/
def AllSequenced (s : State cfg) : Prop := ∀ vb, Sequenced (s.hist.assigned vb) (s.hist.handed vb) (s.seqnos vb)

theorem AllSequenced.next (sequenced : s.AllSequenced) (e : Event) : (s.next e).AllSequenced := by
  cases e with
  | write vb ok =>
    intro vb'
    by_cases same : vb' = vb
    · subst same
      simp only [State.next, Function.update_self]
      exact (sequenced vb').append ..
    · simp only [State.next, Function.update_of_ne same]
      exact sequenced vb'
  | _ => exact sequenced

/-- What holds of the order of writes wherever a tape leads. -/
structure Ordered (s : State cfg) : Prop where
  flow : s.Flow
  inOrder : s.InOrder
  sequenced : s.AllSequenced

theorem Ordered.initial (maxBytes : ℕ) (store : UInt16 → Store) (seqnos : UInt16 → ℕ) :
    (State.initial cfg maxBytes store seqnos).Ordered where
  flow := .initial maxBytes store seqnos
  inOrder _ _ := rfl
  sequenced _ := ⟨.nil, fun _ member => (List.not_mem_nil member).elim, fun _ => .slnil,
    fun _ member => (List.not_mem_nil member).elim⟩

theorem Ordered.step {t : State cfg} (ordered : s.Ordered) (taken : s.step e = some t) : t.Ordered := by
  have flow := ordered.flow.step taken
  obtain ⟨able, rfl⟩ := step_eq_some.mp taken
  exact ⟨flow, ordered.inOrder.next ordered.flow.homes e, ordered.sequenced.next e⟩

theorem Accounts.accepted_nodup (accounts : s.Accounts) : s.hist.accepted.Nodup := by
  apply List.nodup_iff_count_le_one.mpr
  intro r
  have := accounts.accepted r
  have := List.nodup_iff_count_le_one.mp accounts.puts r
  omega

section Batches

variable (ordered : s.Ordered) (vb : UInt16)
include ordered

/-- What is swept from a vbucket was staged for it. -/
theorem mem_stagedBy_of_swept {r : Request} (swept : r ∈ (s.hist.swept vb).flatten) : r ∈ s.stagedBy r.thread vb := by
  rw [← ordered.inOrder r.thread vb]
  exact List.mem_append_left _ (List.mem_filter.mpr ⟨List.mem_append_left _ swept, by simp⟩)

theorem swept_ofVbucket : OfVbucket vb (s.hist.swept vb).flatten := by
  intro r swept
  have staged := (List.mem_filter.mp (mem_stagedBy_of_swept ordered vb swept)).2
  simp only [decide_eq_true_eq] at staged
  exact staged.2

/-- A staged write is in its thread's chain, on the queue, or once in one batch. -/
theorem count_places {r : Request} (accepted : r ∈ s.hist.accepted) (here : r.vbucket = vb) :
    (s.vbs r.thread vb).count r + (s.list vb).count r + (s.hist.swept vb).flatten.count r = 1 := by
  have once := List.count_eq_one_of_mem ordered.flow.accounts.accepted_nodup accepted
  have staged := ordered.flow.accounts.staged r
  have flushed := ordered.flow.accounts.flushed r
  subst here
  omega

theorem swept_nodup : (s.hist.swept vb).flatten.Nodup := by
  apply List.nodup_iff_count_le_one.mpr
  intro r
  by_cases swept : r ∈ (s.hist.swept vb).flatten
  · have staged := List.mem_filter.mp (mem_stagedBy_of_swept ordered vb swept)
    have := count_places ordered vb staged.1 (swept_ofVbucket ordered vb r swept)
    omega
  · rw [List.count_eq_zero.mpr swept]
    omega

/-- Once nothing waits for a vbucket, its batches hold what was staged for it, each write once. -/
theorem swept_perm (staged : ∀ t, s.vbs t vb = []) (queued : s.list vb = []) :
    (s.hist.swept vb).flatten.Perm (s.hist.accepted.filter fun r => r.vbucket = vb) := by
  refine (List.perm_ext_iff_of_nodup (swept_nodup ordered vb)
    (ordered.flow.accounts.accepted_nodup.filter _)).mpr fun r => ⟨fun swept => ?_, fun accepted => ?_⟩
  · have staged := List.mem_filter.mp (mem_stagedBy_of_swept ordered vb swept)
    exact List.mem_filter.mpr ⟨staged.1, by simpa using swept_ofVbucket ordered vb r swept⟩
  · obtain ⟨accepted, here⟩ := List.mem_filter.mp accepted
    have one := count_places ordered vb accepted (by simpa using here)
    rw [staged r.thread, queued, List.count_nil] at one
    exact List.count_pos_iff.mp (by omega)

/-- A thread's writes are swept in the order it staged them. -/
theorem swept_in_order (t : ℕ) :
    ((s.hist.swept vb).flatten.filter fun r => r.thread = t) <+: s.stagedBy t vb := by
  rw [← ordered.inOrder t vb, line, List.filter_append, List.append_assoc]
  exact List.prefix_append ..

theorem handed_sublist : (s.hist.handed vb).flatten.Sublist (s.hist.swept vb).flatten := by
  rw [ordered.flow.accounts.swept vb, List.flatten_append]
  exact List.sublist_append_left ..

/-- Two writes of one thread that were handed over were handed over in the order they were staged. -/
theorem pair_handed {a b : Request} (pair : [a, b].Sublist s.hist.accepted) (thread : a.thread = b.thread)
    (first : a ∈ (s.hist.handed vb).flatten) (second : b ∈ (s.hist.handed vb).flatten) :
    [a, b].Sublist (s.hist.handed vb).flatten := by
  have sub := handed_sublist ordered vb
  have home := swept_ofVbucket ordered vb
  have distinct := swept_nodup ordered vb
  have staged : [a, b].Sublist (s.stagedBy a.thread vb) := by
    have filtered := pair.filter fun r => r.thread = a.thread ∧ r.vbucket = vb
    simpa [stagedBy, thread, home a (sub.subset first), home b (sub.subset second)] using filtered
  have swept : [a, b].Sublist (s.hist.swept vb).flatten := by
    refine (pair_of_sublist ((ordered.flow.accounts.accepted_nodup).filter _) staged
      (swept_in_order ordered vb a.thread).sublist ?_ ?_).trans List.filter_sublist
    · exact List.mem_filter.mpr ⟨sub.subset first, by simp⟩
    · exact List.mem_filter.mpr ⟨sub.subset second, by simp [thread]⟩
  exact pair_of_sublist distinct swept sub first second

theorem mem_handed_of_assigned {op : Request × ℕ} (assigned : op ∈ s.hist.assigned vb) :
    op.1 ∈ (s.hist.handed vb).flatten := by
  have kept : op.1 ∈ ((s.hist.assigned vb).map Prod.fst).filter fun r => r.key = op.1.key :=
    List.mem_filter.mpr ⟨List.mem_map_of_mem assigned, by simp⟩
  exact (List.mem_filter.mp (((ordered.sequenced vb).arrival op.1.key).subset kept)).1

/-- Of two writes of one key that one thread staged, the later one, or the write that superseded it in
its batch, has the larger seqno. -/
theorem seqno_lt_of_staged {a b c : Request} {sa sc : ℕ} {batch : List Request}
    (pair : [a, b].Sublist s.hist.accepted) (thread : a.thread = b.thread) (key : a.key = b.key)
    (first : (a, sa) ∈ s.hist.assigned vb) (handed : batch ∈ s.hist.handed vb) (inBatch : b ∈ batch)
    (second : (c, sc) ∈ s.hist.assigned vb) (supersedes : c = b ∨ c.key = b.key ∧ [b, c].Sublist batch) : sa < sc := by
  have distinct : (s.hist.handed vb).flatten.Nodup := (swept_nodup ordered vb).sublist (handed_sublist ordered vb)
  have order := pair_handed ordered vb pair thread (mem_handed_of_assigned ordered vb first)
    (List.mem_flatten.mpr ⟨batch, handed, inBatch⟩)
  rcases supersedes with rfl | ⟨same, later⟩
  · exact (ordered.sequenced vb).seqno_lt distinct order key first second
  · have after := later.trans (List.sublist_flatten_of_mem handed)
    exact (ordered.sequenced vb).seqno_lt distinct (pair_trans distinct order after) (key.trans same.symm) first second

end Batches

/-- The vbucket queue keeps every staged write and its thread's order: a staged write waits in one place
or is once in one batch, the batches hold one thread's writes in the order it staged them, and of two
writes of a key by one thread the later one, or what superseded it in its batch, gets the larger seqno. -/
theorem write_queue_order {maxBytes : ℕ} {store : UInt16 → Store} {seqnos : UInt16 → ℕ}
    (reached : Reach State.step (State.initial cfg maxBytes store seqnos) s) (vb : UInt16) :
    (∀ r ∈ s.hist.accepted, r.vbucket = vb →
      (s.vbs r.thread vb).count r + (s.list vb).count r + (s.hist.swept vb).flatten.count r = 1) ∧
    ((∀ t, s.vbs t vb = []) → s.list vb = [] →
      (s.hist.swept vb).flatten.Perm (s.hist.accepted.filter fun r => r.vbucket = vb)) ∧
    (∀ t, ((s.hist.swept vb).flatten.filter fun r => r.thread = t) <+: s.stagedBy t vb) ∧
    (∀ batch ∈ s.hist.handed vb, ∀ r ∈ batch, r ∈ (s.hist.assigned vb).map Prod.fst ∨
      ∃ w ∈ (s.hist.assigned vb).map Prod.fst, w.key = r.key ∧ [r, w].Sublist batch) ∧
    ∀ a b c sa sc, [a, b].Sublist s.hist.accepted → a.thread = b.thread → a.key = b.key →
      (a, sa) ∈ s.hist.assigned vb → ∀ batch ∈ s.hist.handed vb, b ∈ batch → (c, sc) ∈ s.hist.assigned vb →
        c = b ∨ c.key = b.key ∧ [b, c].Sublist batch → sa < sc := by
  have ordered : s.Ordered := reached.invariant (.initial maxBytes store seqnos) fun ordered taken => ordered.step taken
  exact ⟨fun r accepted here => count_places ordered vb accepted here, swept_perm ordered vb,
    swept_in_order ordered vb, (ordered.sequenced vb).superseded,
    fun a b c sa sc pair thread key first batch handed inBatch second supersedes =>
      seqno_lt_of_staged ordered vb pair thread key first handed inBatch second supersedes⟩

end State

/-- Two writes of one key, staged by one thread and swept together. -/
theorem write_queue_order_one_batch : ∃ s, Reach State.step (plainStart plainConfig 1000) s ∧
    s.hist.accepted = [plainSet 0 0 1, plainSet 1 0 2] ∧ s.hist.handed 0 = [[plainSet 0 0 1, plainSet 1 0 2]] ∧
      (s.hist.swept 0).flatten.filter (fun r => r.thread = 0) <+: s.stagedBy 0 0 ∧
      ∀ sa sb, (plainSet 0 0 1, sa) ∈ s.hist.assigned 0 → (plainSet 1 0 2, sb) ∈ s.hist.assigned 0 → sa < sb := by
  let tape : List Event := [.put (plainSet 0 0 1) none, .accept (plainSet 0 0 1), .put (plainSet 1 0 2) none,
    .accept (plainSet 1 0 2), .charge 0, .push 0 0, .flushed 0, .sweep 0, .write 0 true]
  obtain ⟨s, reached, accepted, handed⟩ : ∃ s, Reach State.step (plainStart plainConfig 1000) s ∧
      s.hist.accepted = [plainSet 0 0 1, plainSet 1 0 2] ∧ s.hist.handed 0 = [[plainSet 0 0 1, plainSet 1 0 2]] :=
    exists_reach tape (by decide +kernel)
  obtain ⟨_, _, inOrder, _, rising⟩ := State.write_queue_order reached 0
  refine ⟨s, reached, accepted, handed, inOrder 0, fun sa sb first second => ?_⟩
  have pair : [plainSet 0 0 1, plainSet 1 0 2].Sublist s.hist.accepted := accepted ▸ .refl _
  exact rising _ _ _ sa sb pair rfl rfl first _ (handed ▸ List.mem_singleton_self _)
    (List.mem_cons_of_mem _ (List.mem_singleton_self _)) second (.inl rfl)

end FluxKV.Engine
