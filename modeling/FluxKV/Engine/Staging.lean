import FluxKV.Engine.Flow

/-! # The staging tables

An IO thread adds the size of each write it stages to a byte count of its own, and charges the count to the
shared `queuedBytes_` in one addition at the start of `FlushStaged`, before it pushes the chains. So a
thread's count is what its chains weigh, except during a flush, when the chains it has not pushed yet
are charged already.
-/

namespace FluxKV.Engine

open Protocol Cache Counting Machine

/-- A flush begins or ends. -/
def Event.flushes : Event → Bool
  | .charge _ | .flushed _ => true
  | _ => false

namespace State

variable {cfg : Config} {s : State cfg} {e : Event}

/-- The staging tables are consistent, and what was charged is what was pushed and what a running flush
still holds. -/
structure Stocked (s : State cfg) : Prop where
  nodup : ∀ t, (s.touched t).Nodup
  touched : ∀ t, s.pc t ≠ .flushing → ∀ vb, vb ∈ s.touched t ↔ s.vbs t vb ≠ []
  left : ∀ t, s.pc t = .flushing → ∀ vb, s.vbs t vb ≠ [] → vb ∈ s.left t
  bytes : ∀ t, s.bytes t = if s.pc t = .flushing then 0 else bytesOf cfg ((s.touched t).flatMap (s.vbs t))
  charged : ∀ r, s.hist.charged.count r = s.hist.flushed.count r +
    if s.pc r.thread = .flushing then (s.vbs r.thread r.vbucket).count r else 0

/-- What a thread that is not flushing has staged of a write. -/
theorem Stocked.count_staged (homes : s.Homes) (stocked : s.Stocked) {t : ℕ} (home : s.pc t ≠ .flushing) (r : Request) :
    ((s.touched t).flatMap (s.vbs t)).count r = (s.vbs t r.vbucket).count r := by
  rw [count_flatMap_home Request.vbucket (s.vbs t) (fun vb x member => (homes.vbs t vb x member).2) (stocked.nodup t)]
  split
  · rfl
  · next untouched =>
    have empty : s.vbs t r.vbucket = [] := by
      by_contra nonempty
      exact untouched ((stocked.touched t home _).mpr nonempty)
    rw [empty, List.count_nil]

/-- Only the two ends of a flush change who is flushing. -/
theorem flushing_next (able : s.enabled e) (other : e.flushes = false) (t : ℕ) :
    (s.next e).pc t = .flushing ↔ s.pc t = .flushing := by
  have keep {t' : ℕ} {pc : IoPc} (before : s.pc t' ≠ .flushing) (after : pc ≠ .flushing) :
      Function.update s.pc t' pc t = .flushing ↔ s.pc t = .flushing := by
    by_cases same : t = t'
    · subst same
      simp [before, after]
    · simp [same]
  cases e with
  | put w cap =>
    obtain ⟨idle, _⟩ := of_decide_eq_true able
    exact keep (by rw [idle]; decide) (by simp)
  | accept | refuse =>
    obtain ⟨handling, _⟩ := of_decide_eq_true able
    exact keep (by rw [handling]; simp) (by simp)
  | erase w =>
    have refused : s.pc w.thread = .refused w := of_decide_eq_true able
    exact keep (by rw [refused]; simp) (by simp)
  | charge | flushed => cases other
  | _ => exact Iff.rfl

/-- The thread that stages a write is not flushing. -/
theorem ne_of_accept {w : Request} (able : s.enabled (.accept w)) {t : ℕ} (flushing : s.pc t = .flushing) :
    t ≠ w.thread := by
  obtain ⟨handling, _⟩ := of_decide_eq_true able
  rintro rfl
  rw [handling] at flushing
  simp at flushing

private theorem nodup_next (stocked : s.Stocked) (able : s.enabled e) : ∀ t, ((s.next e).touched t).Nodup := by
  cases e with
  | accept w =>
    obtain ⟨handling, _⟩ := of_decide_eq_true able
    intro t
    simp only [next]
    split
    · next empty =>
      by_cases same : t = w.thread
      · subst same
        rw [Function.update_self]
        refine (stocked.nodup _).append (List.nodup_singleton _) (List.disjoint_singleton.mpr fun member => ?_)
        exact (stocked.touched w.thread (by rw [handling]; simp) w.vbucket).mp member empty
      · rw [Function.update_of_ne same]
        exact stocked.nodup t
    · exact stocked.nodup t
  | flushed t' =>
    exact forall_update (P := fun _ => List.Nodup) List.nodup_nil stocked.nodup
  | _ => exact stocked.nodup

private theorem touched_accept (stocked : s.Stocked) {w : Request} (able : s.enabled (.accept w)) (t : ℕ)
    (home : s.pc t ≠ .flushing) (vb : UInt16) :
    vb ∈ (s.next (.accept w)).touched t ↔ (s.next (.accept w)).vbs t vb ≠ [] := by
  obtain ⟨handling, _⟩ := of_decide_eq_true able
  have before := stocked.touched t home vb
  simp only [next, update_update_apply]
  by_cases here : t = w.thread ∧ vb = w.vbucket
  · obtain ⟨rfl, rfl⟩ := here
    simp only [and_self, if_true, ne_eq, reduceCtorEq, not_false_eq_true, iff_true]
    split
    · simp
    · next nonempty => exact before.mpr nonempty
  · rw [if_neg here, ← before]
    split
    · by_cases same : t = w.thread
      · subst same
        have other : vb ≠ w.vbucket := fun equal => here ⟨rfl, equal⟩
        simp [other]
      · rw [Function.update_of_ne same]
    · exact Iff.rfl

/-- At the end of a flush nothing is left. -/
theorem Stocked.vbs_flushed (stocked : s.Stocked) {t : ℕ} (able : s.enabled (.flushed t)) (vb : UInt16) :
    s.vbs t vb = [] := by
  obtain ⟨flushing, done⟩ := of_decide_eq_true able
  by_contra nonempty
  have := stocked.left t flushing vb nonempty
  rw [done] at this
  exact List.not_mem_nil this

private theorem touched_iff_next (stocked : s.Stocked) (able : s.enabled e) : ∀ t, (s.next e).pc t ≠ .flushing →
    ∀ vb, vb ∈ (s.next e).touched t ↔ (s.next e).vbs t vb ≠ [] := by
  intro t home vb
  cases e with
  | accept w => exact touched_accept stocked able t (fun flushing => home ((flushing_next able rfl t).mpr flushing)) vb
  | put _ _ | refuse _ | erase _ =>
    exact stocked.touched t (fun flushing => home ((flushing_next able rfl t).mpr flushing)) vb
  | charge t' =>
    refine stocked.touched t (fun flushing => home ?_) vb
    by_cases same : t = t'
    · simp [next, same]
    · simpa [next, same] using flushing
  | push t' vb' =>
    obtain ⟨flushing, _⟩ := of_decide_eq_true able
    have other : ¬ (t = t' ∧ vb = vb') := fun here => home (here.1 ▸ flushing)
    simp only [next, update_update_apply, if_neg other]
    exact stocked.touched t home vb
  | flushed t' =>
    by_cases same : t = t'
    · subst same
      simp [next, stocked.vbs_flushed able vb]
    · simp only [next, Function.update_of_ne same] at home ⊢
      exact stocked.touched t home vb
  | _ => exact stocked.touched t home vb

private theorem left_next (stocked : s.Stocked) (able : s.enabled e) : ∀ t, (s.next e).pc t = .flushing →
    ∀ vb, (s.next e).vbs t vb ≠ [] → vb ∈ (s.next e).left t := by
  intro t flushing vb nonempty
  cases e with
  | put _ _ | refuse _ | erase _ => exact stocked.left t ((flushing_next able rfl t).mp flushing) vb nonempty
  | accept w =>
    have before := (flushing_next able rfl t).mp flushing
    simp only [next, Function.update_of_ne (ne_of_accept able before)] at nonempty
    exact stocked.left t before vb nonempty
  | charge t' =>
    have idle : s.pc t' = .idle := of_decide_eq_true able
    by_cases same : t = t'
    · subst same
      simp only [next, Function.update_self]
      exact (stocked.touched t (by rw [idle]; simp) vb).mpr nonempty
    · simp only [next, Function.update_of_ne same] at flushing ⊢
      exact stocked.left t flushing vb nonempty
  | push t' vb' =>
    obtain ⟨_, head⟩ := of_decide_eq_true able
    simp only [next, update_update_apply] at nonempty
    split at nonempty
    · exact (nonempty rfl).elim
    · next other =>
      have old := stocked.left t flushing vb nonempty
      by_cases same : t = t'
      · subst same
        rw [← List.cons_head?_tail head] at old
        simp only [next, Function.update_self]
        exact (List.mem_cons.mp old).resolve_left fun equal => other ⟨rfl, equal⟩
      · simp only [next, Function.update_of_ne same]
        exact old
  | flushed t' =>
    by_cases same : t = t'
    · simp [next, same] at flushing
    · simp only [next, Function.update_of_ne same] at flushing
      exact stocked.left t flushing vb nonempty
  | _ => exact stocked.left t flushing vb nonempty

/-- Staging a write adds its size to its thread's count. -/
private theorem bytes_accept (homes : s.Homes) (stocked : s.Stocked) {w : Request} (able : s.enabled (.accept w))
    (t : ℕ) (home : s.pc t ≠ .flushing) : (s.next (.accept w)).bytes t =
      bytesOf cfg (((s.next (.accept w)).touched t).flatMap ((s.next (.accept w)).vbs t)) := by
  have before := stocked.bytes t
  rw [if_neg home] at before
  have count (r : Request) : (((s.next (.accept w)).touched t).flatMap ((s.next (.accept w)).vbs t)).count r =
      ((s.next (.accept w)).vbs t r.vbucket).count r := by
    rw [count_flatMap_home Request.vbucket _ (fun vb x member => ((homes.next _).vbs t vb x member).2)
      (nodup_next stocked able t)]
    split
    · rfl
    · next untouched =>
      have empty : (s.next (.accept w)).vbs t r.vbucket = [] := by
        by_contra nonempty
        exact untouched ((touched_accept stocked able t home _).mpr nonempty)
      rw [empty, List.count_nil]
  by_cases same : t = w.thread
  · subst same
    have split (r : Request) :
        (((s.next (.accept w)).touched w.thread).flatMap ((s.next (.accept w)).vbs w.thread)).count r =
        ((s.touched w.thread).flatMap (s.vbs w.thread)).count r + [w].count r := by
      rw [count, stocked.count_staged homes home]
      by_cases here : r.vbucket = w.vbucket
      · simp [next, here, List.count_cons]
      · have differ : w ≠ r := fun equal => here (equal ▸ rfl)
        simp [next, here, differ]
    rw [bytesOf, sum_map_of_count _ split]
    simp only [next, Function.update_self, before, bytesOf, List.map_singleton, List.sum_singleton]
  · have same : ((s.next (.accept w)).touched t).flatMap ((s.next (.accept w)).vbs t) =
        (s.touched t).flatMap (s.vbs t) := by
      simp only [next, Function.update_of_ne same]
      split
      · rw [Function.update_of_ne same]
      · rfl
    rw [same, ← before]
    simp only [next]
    rw [Function.update_of_ne ‹_›]

private theorem bytes_next (homes : s.Homes) (stocked : s.Stocked) (able : s.enabled e) : ∀ t,
    (s.next e).bytes t = if (s.next e).pc t = .flushing then 0 else
      bytesOf cfg (((s.next e).touched t).flatMap ((s.next e).vbs t)) := by
  intro t
  have before := stocked.bytes t
  cases e with
  | put _ _ | refuse _ | erase _ =>
    rw [if_congr (flushing_next able rfl t) rfl rfl]
    exact before
  | accept w =>
    rw [if_congr (flushing_next able rfl t) rfl rfl]
    split
    · next flushing =>
      rw [if_pos flushing] at before
      simpa only [next, Function.update_of_ne (ne_of_accept able flushing)] using before
    · next home => exact bytes_accept homes stocked able t home
  | charge t' =>
    by_cases same : t = t'
    · simp [next, same]
    · simpa [next, same] using before
  | push t' vb' =>
    obtain ⟨flushing, _⟩ := of_decide_eq_true able
    by_cases same : t = t'
    · subst same
      simpa [next, flushing] using before
    · simpa [next, same] using before
  | flushed t' =>
    obtain ⟨flushing, _⟩ := of_decide_eq_true able
    by_cases same : t = t'
    · subst same
      simpa [next, flushing, bytesOf] using before
    · simpa [next, same] using before
  | _ => exact before

private theorem charged_next (homes : s.Homes) (stocked : s.Stocked) (able : s.enabled e) : ∀ r,
    (s.next e).hist.charged.count r = (s.next e).hist.flushed.count r +
      if (s.next e).pc r.thread = .flushing then ((s.next e).vbs r.thread r.vbucket).count r else 0 := by
  intro r
  have before := stocked.charged r
  cases e with
  | put _ _ | refuse _ | erase _ =>
    rw [if_congr (flushing_next able rfl r.thread) rfl rfl]
    exact before
  | accept w =>
    rw [if_congr (flushing_next able rfl r.thread) rfl rfl]
    split
    · next flushing =>
      rw [if_pos flushing] at before
      simpa only [next, Function.update_of_ne (ne_of_accept able flushing)] using before
    · next home =>
      rw [if_neg home] at before
      exact before
  | charge t' =>
    have idle : s.pc t' = .idle := of_decide_eq_true able
    have home : s.pc t' ≠ .flushing := by rw [idle]; simp
    simp only [next, List.count_append, stocked.count_staged homes home]
    by_cases same : r.thread = t'
    · subst same
      simp [before, home]
    · have absent : (s.vbs t' r.vbucket).count r = 0 :=
        List.count_eq_zero.mpr fun member => same (homes.vbs t' _ r member).1
      simp [before, absent, same]
  | push t' vb' =>
    obtain ⟨flushing, _⟩ := of_decide_eq_true able
    have chain := vbs_push homes r t' vb'
    rw [if_congr (flushing_next able rfl r.thread) rfl rfl]
    simp only [next, List.count_append] at chain ⊢
    by_cases same : r.thread = t'
    · subst same
      rw [if_pos flushing] at before ⊢
      omega
    · have absent : (s.vbs t' vb').count r = 0 :=
        List.count_eq_zero.mpr fun member => same (homes.vbs t' vb' r member).1
      rw [absent, Nat.add_zero] at chain ⊢
      rw [chain]
      exact before
  | flushed t' =>
    obtain ⟨flushing, _⟩ := of_decide_eq_true able
    by_cases same : r.thread = t'
    · subst same
      simpa [next, flushing, stocked.vbs_flushed able] using before
    · simpa [next, same] using before
  | _ => exact before

theorem Stocked.next (homes : s.Homes) (stocked : s.Stocked) (able : s.enabled e) : (s.next e).Stocked where
  nodup := nodup_next stocked able
  touched := touched_iff_next stocked able
  left := left_next stocked able
  bytes := bytes_next homes stocked able
  charged := charged_next homes stocked able

theorem Stocked.initial (maxBytes : ℕ) (store : UInt16 → Store) (seqnos : UInt16 → ℕ) :
    (State.initial cfg maxBytes store seqnos).Stocked where
  nodup _ := List.nodup_nil
  touched _ _ _ := by simp [State.initial]
  left _ flushing := by cases flushing
  bytes _ := rfl
  charged _ := rfl

end State

end FluxKV.Engine
