import FluxKV.Engine.Release

/-! # In which order puts reach magma

The cache takes a write when its handler runs; magma takes it when its thread's chain has been pushed
and swept. Two threads may do the first in one order and the second in the other. The queue keeps the
order of the puts of a key as long as no thread pushes a write past an earlier put of the key that is
still held back, and then what magma holds is what the last put wrote.
-/

namespace FluxKV.Engine

open Protocol Cache Counting Machine

/-- `WriteDocs` fails. -/
def Event.fails : Event → Bool
  | .write _ ok => !ok
  | _ => false

namespace State

variable {cfg : Config} {s : State cfg} {e : Event}

/-- A queue in which the writes of each key stand in the order of their puts. -/
def Rising (queue : List Request) : Prop := queue.Pairwise fun a b => a.key = b.key → a.id < b.id

/-- Identities number the puts, and each thread stages in that order. -/
structure Numbered (s : State cfg) : Prop where
  puts : s.hist.puts.Pairwise fun a b => a.id < b.id
  staged : ∀ t vb, (s.vbs t vb).Pairwise fun a b => b.id < a.id
  handled : ∀ t, ∀ r ∈ (s.pc t).handled, ∀ vb, ∀ w ∈ s.vbs t vb, w.id < r.id

theorem Accounts.mem_puts_of_accepted (accounts : s.Accounts) {r : Request} (accepted : r ∈ s.hist.accepted) :
    r ∈ s.hist.puts := by
  have := List.count_pos_iff.mpr accepted
  have := accounts.accepted r
  exact List.count_pos_iff.mp (by omega)

theorem Flow.mem_puts_of_staged (flow : s.Flow) {t : ℕ} {vb : UInt16} {r : Request} (staged : r ∈ s.vbs t vb) :
    r ∈ s.hist.puts := by
  obtain ⟨rfl, rfl⟩ := flow.homes.vbs t vb r staged
  have := List.count_pos_iff.mpr staged
  have := flow.accounts.staged r
  exact flow.accounts.mem_puts_of_accepted (List.count_pos_iff.mp (by omega))

private theorem handled_next_subset (flow : s.Flow) (numbered : s.Numbered) (able : s.enabled e) :
    ∀ t, ∀ r ∈ ((s.next e).pc t).handled, ∀ vb, ∀ w ∈ (s.next e).vbs t vb, w.id < r.id := by
  cases e with
  | put w cap =>
    obtain ⟨_, fresh, _⟩ := of_decide_eq_true able
    intro t r handled vb x staged
    by_cases same : t = w.thread
    · subst same
      simp only [next, Function.update_self, IoPc.handled, List.mem_singleton] at handled
      have := flow.accounts.ids x (flow.mem_puts_of_staged staged)
      rw [handled, fresh]
      exact this
    · simp only [next, Function.update_of_ne same] at handled
      exact numbered.handled t r handled vb x staged
  | accept w =>
    intro t r handled vb x staged
    by_cases same : t = w.thread
    · subst same
      simp [next, IoPc.handled] at handled
    · simp only [next, Function.update_of_ne same] at handled staged
      exact numbered.handled t r handled vb x staged
  | refuse w | erase w | charge t' | flushed t' =>
    intro t r handled vb x staged
    simp only [next, Function.update_apply] at handled
    split at handled
    · simp [IoPc.handled] at handled
    · exact numbered.handled t r handled vb x staged
  | push t' vb' =>
    intro t r handled vb x staged
    simp only [next, update_update_apply] at staged
    split at staged
    · exact (List.not_mem_nil staged).elim
    · exact numbered.handled t r handled vb x staged
  | _ => exact numbered.handled

theorem Numbered.next (flow : s.Flow) (numbered : s.Numbered) (able : s.enabled e) : (s.next e).Numbered where
  puts := by
    cases e with
    | put w cap =>
      obtain ⟨_, fresh, _⟩ := of_decide_eq_true able
      refine List.pairwise_append.mpr ⟨numbered.puts, List.pairwise_singleton .., fun a old b new => ?_⟩
      rw [List.mem_singleton.mp new, fresh]
      exact flow.accounts.ids a old
    | _ => exact numbered.puts
  staged := by
    cases e with
    | accept w =>
      obtain ⟨handling, _⟩ := of_decide_eq_true able
      intro t vb
      simp only [State.next, update_update_apply]
      split
      · refine List.pairwise_cons.mpr ⟨fun x staged => ?_, numbered.staged _ _⟩
        exact numbered.handled w.thread w (by rw [handling]; exact List.mem_singleton_self w) _ x staged
      · exact numbered.staged t vb
    | push t' vb' =>
      intro t vb
      simp only [State.next, update_update_apply]
      split
      · exact .nil
      · exact numbered.staged t vb
    | _ => exact numbered.staged
  handled := handled_next_subset flow numbered able

theorem Numbered.initial (maxBytes : ℕ) (store : UInt16 → Store) (seqnos : UInt16 → ℕ) :
    (State.initial cfg maxBytes store seqnos).Numbered :=
  ⟨.nil, fun _ _ => .nil, fun _ _ member => (List.not_mem_nil member).elim⟩

/-- The chain an event pushes onto its vbucket's queue. -/
def pushed (s : State cfg) : Event → List Request
  | .push t vb => s.vbs t vb
  | _ => []

/-- No write is pushed while an earlier put of its key is held back outside the chain. -/
def PushesInOrder (s : State cfg) (e : Event) : Prop :=
  ∀ r ∈ s.pushed e, ∀ w ∈ s.hist.unpushed, w.docKey = r.docKey → w.id < r.id → w ∈ s.pushed e

instance (s : State cfg) (e : Event) : Decidable (s.PushesInOrder e) := inferInstanceAs (Decidable (∀ r ∈ _, _))

/-- The puts of a key are queued in order, and those that wait are later than those in the queue. -/
structure InLine (s : State cfg) : Prop where
  placed : ∀ r ∈ s.hist.puts, r ∈ s.hist.unpushed ∨ r ∈ s.hist.flushed
  rising : ∀ vb, Rising (s.line vb)
  behind : ∀ vb, ∀ a ∈ s.line vb, ∀ w ∈ s.hist.unpushed, w.docKey = a.docKey → a.id < w.id

theorem Ordered.mem_line (ordered : s.Ordered) {vb : UInt16} {r : Request} (queued : r ∈ s.line vb) :
    r ∈ s.hist.puts ∧ r.vbucket = vb := by
  have staged : r ∈ s.stagedBy r.thread vb := by
    rw [← ordered.inOrder r.thread vb]
    exact List.mem_append_left _ (List.mem_filter.mpr ⟨queued, by simp⟩)
  obtain ⟨accepted, here⟩ := List.mem_filter.mp staged
  simp only [decide_eq_true_eq] at here
  exact ⟨ordered.flow.accounts.mem_puts_of_accepted accepted, here.2⟩

theorem Flow.mem_unpushed_of_staged (flow : s.Flow) {t : ℕ} {vb : UInt16} {r : Request} (staged : r ∈ s.vbs t vb) :
    r ∈ s.hist.unpushed := by
  obtain ⟨rfl, rfl⟩ := flow.homes.vbs t vb r staged
  exact (flow.accounts.unpushed r).mpr (.inr staged)

theorem Accounts.mem_puts_of_unpushed (accounts : s.Accounts) {r : Request} (unpushed : r ∈ s.hist.unpushed) :
    r ∈ s.hist.puts := by
  have := accounts.accepted r
  rcases (accounts.unpushed r).mp unpushed with handled | staged
  · have := List.count_pos_iff.mpr handled
    exact List.count_pos_iff.mp (by omega)
  · have := List.count_pos_iff.mpr staged
    have := accounts.staged r
    exact List.count_pos_iff.mp (by omega)

/-- Two puts of one identity are one put. -/
theorem Numbered.id_injective (numbered : s.Numbered) {a b : Request} (first : a ∈ s.hist.puts)
    (second : b ∈ s.hist.puts) (same : a.id = b.id) : a = b := by
  by_contra differ
  rcases ListOrder.pair_sublist_or first second differ with forth | back
  · have := ListOrder.rank_lt_of_pair numbered.puts forth
    omega
  · have := ListOrder.rank_lt_of_pair numbered.puts back
    omega

private theorem rising_push (ordered : s.Ordered) (numbered : s.Numbered) (inLine : s.InLine) (t : ℕ) (vb : UInt16) :
    Rising (s.line vb ++ (s.vbs t vb).reverse) := by
  refine List.pairwise_append.mpr ⟨inLine.rising vb, ?_, fun a queued b chained same => ?_⟩
  · refine List.Pairwise.imp ?_ (List.pairwise_reverse.mpr (numbered.staged t vb))
    exact fun before _ => before
  · have staged := List.mem_reverse.mp chained
    have home := (ordered.flow.homes.vbs t vb b staged).2
    apply inLine.behind vb a queued b (ordered.flow.mem_unpushed_of_staged staged)
    rw [Request.docKey, Request.docKey, home, (ordered.mem_line queued).2, same]

private theorem behind_push (ordered : s.Ordered) (numbered : s.Numbered) (inLine : s.InLine) {t : ℕ} {vb : UInt16}
    (order : s.PushesInOrder (.push t vb)) {a w : Request} (queued : a ∈ s.line vb ++ (s.vbs t vb).reverse)
    (unpushed : w ∈ s.hist.unpushed) (outside : w ∉ s.vbs t vb) (same : w.docKey = a.docKey) : a.id < w.id := by
  rcases List.mem_append.mp queued with old | new
  · exact inLine.behind vb a old w unpushed same
  · have staged := List.mem_reverse.mp new
    have notBefore : ¬ w.id < a.id := fun before => outside (order a staged w unpushed same before)
    have differ : a.id ≠ w.id := fun equal => by
      have := numbered.id_injective (ordered.flow.mem_puts_of_staged staged)
        (ordered.flow.accounts.mem_puts_of_unpushed unpushed) equal
      exact outside (this ▸ staged)
    omega

private theorem placed_next (inLine : s.InLine) (admits : s.Admits e) :
    ∀ r ∈ (s.next e).hist.puts, r ∈ (s.next e).hist.unpushed ∨ r ∈ (s.next e).hist.flushed := by
  cases e with
  | put w cap =>
    intro r put
    rcases List.mem_append.mp put with old | new
    · exact (inLine.placed r old).imp_left (List.mem_append_left _)
    · exact .inl (List.mem_append_right _ new)
  | refuse w => cases admits
  | push t vb =>
    intro r put
    by_cases chained : r ∈ s.vbs t vb
    · exact .inr (List.mem_append_right _ chained)
    · exact (inLine.placed r put).imp (fun unpushed => List.mem_filter.mpr ⟨unpushed, by simpa using chained⟩)
        (List.mem_append_left _)
  | _ => exact inLine.placed

theorem InLine.next (ordered : s.Ordered) (numbered : s.Numbered) (inLine : s.InLine) (able : s.enabled e)
    (admits : s.Admits e) (order : s.PushesInOrder e) : (s.next e).InLine := by
  refine ⟨placed_next inLine admits, ?_, ?_⟩
  · cases e with
    | push t vb =>
      intro vb'
      rw [line_push]
      split
      · exact rising_push ordered numbered inLine t vb
      · exact inLine.rising vb'
    | sweep vb =>
      intro vb'
      rw [line_sweep]
      exact inLine.rising vb'
    | _ => exact inLine.rising
  · cases e with
    | put w cap =>
      obtain ⟨_, fresh, _⟩ := of_decide_eq_true able
      intro vb a queued x unpushed same
      rcases List.mem_append.mp unpushed with old | new
      · exact inLine.behind vb a queued x old same
      · have := ordered.flow.accounts.ids a (ordered.mem_line queued).1
        rw [List.mem_singleton.mp new, fresh]
        exact this
    | refuse w => cases admits
    | push t vb =>
      intro vb' a queued x unpushed same
      obtain ⟨unpushed, outside⟩ := List.mem_filter.mp unpushed
      rw [line_push] at queued
      split at queued
      · exact behind_push ordered numbered inLine order queued unpushed (by simpa using outside) same
      · exact inLine.behind vb' a queued x unpushed same
    | sweep vb =>
      intro vb' a queued
      rw [line_sweep] at queued
      exact inLine.behind vb' a queued
    | _ => exact inLine.behind

theorem InLine.initial (maxBytes : ℕ) (store : UInt16 → Store) (seqnos : UInt16 → ℕ) :
    (State.initial cfg maxBytes store seqnos).InLine :=
  ⟨fun _ member => (List.not_mem_nil member).elim, fun _ => .nil, fun _ _ member => (List.not_mem_nil member).elim⟩

/-- Magma holds what it held at the start with every operation so far applied to it. -/
structure Applied (origin : UInt16 → Store) (s : State cfg) : Prop where
  store : ∀ vb, s.store vb = (origin vb).writeDocs (s.hist.assigned vb)
  last : ∀ vb key, lastWrite key ((s.hist.assigned vb).map Prod.fst) = lastWrite key (s.hist.handed vb).flatten

variable {origin : UInt16 → Store}

theorem Applied.next (applied : s.Applied origin) (succeeds : e.fails = false) : (s.next e).Applied origin := by
  cases e with
  | write vb ok =>
    obtain rfl : ok = true := by simpa [Event.fails] using succeeds
    refine ⟨fun vb' => ?_, fun vb' key => ?_⟩
    · by_cases same : vb' = vb
      · subst same
        simp only [State.next, if_true, Function.update_self, Store.writeDocs_append, applied.store]
      · simp only [State.next, if_true, Function.update_of_ne same, applied.store]
    · by_cases same : vb' = vb
      · subst same
        simp only [State.next, Function.update_self, List.map_append, assignSeqnos_map_fst, lastWrite_append,
          List.flatten_append, List.flatten_singleton, lastWrite_planBatch, applied.last]
      · simp only [State.next, Function.update_of_ne same, applied.last]
  | _ => exact ⟨applied.store, applied.last⟩

theorem Applied.initial (maxBytes : ℕ) (store : UInt16 → Store) (seqnos : UInt16 → ℕ) :
    (State.initial cfg maxBytes store seqnos).Applied store :=
  ⟨fun _ => rfl, fun _ _ => rfl⟩

/-- The puts of a key, in order. -/
def putsOf (s : State cfg) (key : DocKey) : List Request := s.hist.puts.filter fun r => r.docKey = key

/-- What the last put of a key wrote, or what magma held at the start. -/
def latest (origin : UInt16 → Store) (s : State cfg) (key : DocKey) : Option Content :=
  ((s.putsOf key).getLast?.map Request.content).or ((origin key.1 key.2).map Version.content)

/-- Every put of the key was given to `WriteDocs`. -/
def Settled (s : State cfg) (key : DocKey) : Prop :=
  ∀ r ∈ s.hist.puts, r.docKey = key → r ∈ (s.hist.handed key.1).flatten

/-- Once every put of a key has been handed over, the queue has passed them on in the order of the puts. -/
theorem handed_eq_putsOf (ordered : s.Ordered) (numbered : s.Numbered) (inLine : s.InLine) {key : DocKey}
    (settled : s.Settled key) :
    (s.hist.handed key.1).flatten.filter (fun r => r.key = key.2) = s.putsOf key := by
  have sub := handed_sublist ordered key.1
  have inQueue : (s.hist.handed key.1).flatten.Sublist (s.line key.1) := sub.trans (List.sublist_append_left ..)
  have rising : ((s.hist.handed key.1).flatten.filter fun r => r.key = key.2).Pairwise fun a b => a.id < b.id := by
    apply ((inLine.rising key.1).sublist (List.filter_sublist.trans inQueue)).imp_of_mem
    intro a b first second before
    have first := (List.mem_filter.mp first).2
    have second := (List.mem_filter.mp second).2
    simp only [decide_eq_true_eq] at first second
    exact before (first.trans second.symm)
  have members : ∀ r, r ∈ (s.hist.handed key.1).flatten.filter (fun r => r.key = key.2) ↔ r ∈ s.putsOf key := by
    intro r
    simp only [putsOf, List.mem_filter, decide_eq_true_eq]
    constructor
    · rintro ⟨handed, same⟩
      obtain ⟨put, home⟩ := ordered.mem_line (inQueue.subset handed)
      exact ⟨put, by rw [Request.docKey, home, same]⟩
    · rintro ⟨put, rfl⟩
      exact ⟨settled r put rfl, rfl⟩
  have distinct : (s.putsOf key).Nodup := ordered.flow.accounts.puts.filter _
  refine List.Perm.eq_of_pairwise (fun a b _ _ forth back => ?_) rising (numbered.puts.sublist List.filter_sublist)
    ((List.perm_ext_iff_of_nodup (((swept_nodup ordered key.1).sublist sub).filter _) distinct).mpr members)
  exact (Nat.lt_asymm forth back).elim

/-- Magma then holds what the last put wrote. -/
theorem Applied.content_eq_latest (applied : s.Applied origin) (ordered : s.Ordered) (numbered : s.Numbered)
    (inLine : s.InLine) {key : DocKey} (settled : s.Settled key) :
    (s.store key.1 key.2).map Version.content = s.latest origin key := by
  rw [applied.store, Store.writeDocs_content, applied.last, lastWrite, handed_eq_putsOf ordered numbered inLine settled,
    latest]

end State

end FluxKV.Engine
