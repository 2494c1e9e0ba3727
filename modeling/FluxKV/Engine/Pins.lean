import FluxKV.Engine.Flow

/-! # Cache pins

A put pins its entry until the writer marks the write persisted. `Erase`, which undoes a refused put,
drops the whole entry, and with it the pins of other writes of the key; and the pins of an entry are counted
in 32 bits. `pins_exact_iff` says for which runs the pin counts stay right.
-/

namespace FluxKV.Engine

open Protocol Cache Counting Machine

namespace State

variable {cfg : Config} {s : State cfg} {e : Event}

/-- The writes of a key that were put and neither marked persisted nor erased. -/
def pinsOf (s : State cfg) (key : DocKey) : ℕ := s.hist.pins.countP fun r => r.docKey = key

/-- Those of them that were not refused. -/
def outstanding (s : State cfg) (key : DocKey) : ℕ :=
  s.hist.pins.countP fun r => r.docKey = key ∧ r ∉ s.hist.refused

/-- A write is in one place at most. -/
theorem Accounts.pins_nodup (accounts : s.Accounts) : s.hist.pins.Nodup := by
  apply List.nodup_iff_count_le_one.mpr
  intro r
  have := List.nodup_iff_count_le_one.mp accounts.puts r
  have := accounts.accepted r
  have := accounts.staged r
  have := accounts.flushed r
  have := accounts.marked r
  have := accounts.pins r
  omega

theorem Accounts.mem_pins_of_handling (accounts : s.Accounts) {r : Request} (handling : s.pc r.thread = .handling r) :
    r ∈ s.hist.pins := by
  have one : (s.pc r.thread).handled.count r = 1 := by rw [handling]; exact List.count_singleton_self
  have := accounts.pins r
  exact List.count_pos_iff.mp (by omega)

theorem Accounts.mem_pins_of_refused (accounts : s.Accounts) {r : Request} (refused : r ∈ s.hist.refused) :
    r ∈ s.hist.pins := by
  have := List.count_pos_iff.mpr refused
  have := accounts.refused r
  have := accounts.pins r
  exact List.count_pos_iff.mp (by omega)

theorem Accounts.mem_puts_of_refused (accounts : s.Accounts) {r : Request} (refused : r ∈ s.hist.refused) :
    r ∈ s.hist.puts := by
  have := List.count_pos_iff.mpr refused
  have := accounts.refused r
  have := accounts.accepted r
  exact List.count_pos_iff.mp (by omega)

theorem Accounts.mem_refused_of_pc (accounts : s.Accounts) {r : Request} (pc : s.pc r.thread = .refused r) :
    r ∈ s.hist.refused := by
  have one : (s.pc r.thread).spurned.count r = 1 := by rw [pc]; exact List.count_singleton_self
  have := accounts.refused r
  exact List.count_pos_iff.mp (by omega)

/-- The request a writer is about to mark is pinned, and belongs to the writer's vbucket. -/
theorem Flow.mem_pins_of_mark (flow : s.Flow) {vb : UInt16} {r : Request} {seqno : ℕ}
    (able : s.enabled (.mark vb r seqno)) : r ∈ s.hist.pins ∧ r.vbucket = vb ∧ r ∉ s.hist.refused := by
  obtain ⟨phase, _, head⟩ := of_decide_eq_true able
  have member : r ∈ (s.writer vb).toMark.map Prod.fst :=
    List.mem_map_of_mem (f := Prod.fst) (List.mem_of_mem_head? head)
  obtain rfl := (flow.homes.writer vb).2 r member
  have unmarked : 0 < (s.writer r.vbucket).unmarked.count r := by
    simp only [Writer.unmarked, phase]
    exact List.count_pos_iff.mpr member
  have := flow.accounts.pins r
  refine ⟨List.count_pos_iff.mp (by omega), rfl, List.count_eq_zero.mp ?_⟩
  have := List.nodup_iff_count_le_one.mp flow.accounts.pins_nodup r
  have := flow.accounts.refused r
  omega

/-- If a key has one pin, the write that holds it is the only one. -/
private theorem eq_of_pinsOf_eq_one {r w : Request} (one : s.pinsOf r.docKey = 1)
    (first : r ∈ s.hist.pins) (second : w ∈ s.hist.pins) (same : w.docKey = r.docKey) : w = r := by
  rw [pinsOf, List.countP_eq_length_filter] at one
  obtain ⟨x, only⟩ := List.length_eq_one_iff.mp one
  have left : r ∈ [x] := only ▸ List.mem_filter.mpr ⟨first, by simp⟩
  have right : w ∈ [x] := only ▸ List.mem_filter.mpr ⟨second, by simp [same]⟩
  rw [List.mem_singleton.mp left, List.mem_singleton.mp right]

private theorem pinsOf_eq_one (accounts : s.Accounts) {r : Request} (member : r ∈ s.hist.pins)
    (only : ∀ w ∈ s.hist.pins, w.docKey = r.docKey → w = r) : s.pinsOf r.docKey = 1 := by
  have count : s.pinsOf r.docKey = s.hist.pins.count r := by
    apply List.countP_congr
    intro w inside
    simp only [decide_eq_true_eq, beq_iff_eq]
    exact ⟨only w inside, fun same => by rw [same]⟩
  rw [count]
  exact List.count_eq_one_of_mem accounts.pins_nodup member

private theorem countP_erase_of_mem {pins : List Request} {r : Request} (member : r ∈ pins) (key : DocKey) :
    (pins.erase r).countP (fun w => w.docKey = key) =
      pins.countP (fun w => w.docKey = key) - if r.docKey = key then 1 else 0 := by
  rw [List.countP_erase]
  simp [member]

/-- The cache's pin counts are the writes that hold them, and a refused write holds its key alone. -/
structure PinsExact (s : State cfg) : Prop where
  flow : s.Flow
  cached : s.cache.docCache.isSome
  pending : ∀ key, s.cache.contents.pending key = s.pinsOf key
  alone : ∀ r ∈ s.hist.refused, s.pinsOf r.docKey = 1
  unwrapped : s.hist.wrapped = false

/-- The pins of a key that is put still fit in 32 bits. -/
def FitsPins (s : State cfg) (e : Event) : Prop := ∀ r ∈ e.puts, s.pinsOf r.docKey + 1 < 2 ^ 32

/-- No write is refused while another write of its key is pinned, no write of a key is put between a refusal
and its erase, and none takes the pins of its key past 32 bits. -/
def KeepsPins (s : State cfg) (e : Event) : Prop :=
  (∀ r ∈ e.refuses, ∀ w ∈ s.hist.pins, w.docKey = r.docKey → w = r) ∧
    (∀ r ∈ e.puts, ∀ w ∈ s.hist.refused, w.docKey ≠ r.docKey) ∧ s.FitsPins e

instance (s : State cfg) (e : Event) : Decidable (s.FitsPins e) := inferInstanceAs (Decidable (∀ r ∈ _, _))

instance (s : State cfg) (e : Event) : Decidable (s.KeepsPins e) := inferInstanceAs (Decidable (_ ∧ _ ∧ _))

theorem PinsExact.pending_pos (exact : s.PinsExact) {r : Request} (pinned : r ∈ s.hist.pins) :
    0 < s.cache.contents.pending r.docKey := by
  rw [exact.pending]
  exact List.countP_pos_iff.mpr ⟨r, pinned, by simp⟩

private theorem pending_next (exact : s.PinsExact) (fits : s.FitsPins e) (able : s.enabled e) (key : DocKey) :
    (s.next e).cache.contents.pending key = (s.next e).pinsOf key := by
  have before := exact.pending key
  cases e with
  | put r cap =>
    have few := fits r (List.mem_singleton_self r)
    simp only [next, BucketCache.pending_put _ exact.cached, pinsOf, List.countP_append, List.countP_singleton,
      decide_eq_true_eq]
    by_cases same : r.docKey = key
    · subst same
      rw [if_pos rfl, if_pos rfl, before, fetchAdd_of_lt few]
      rfl
    · rw [if_neg same, if_neg same]
      exact before
  | erase r =>
    have refused := exact.flow.accounts.mem_refused_of_pc (of_decide_eq_true able)
    have one := exact.alone r refused
    simp only [next, BucketCache.pending_erase, pinsOf,
      countP_erase_of_mem (exact.flow.accounts.mem_pins_of_refused refused)]
    by_cases same : r.docKey = key
    · subst same
      simp only [pinsOf] at one
      simp [one]
    · simpa [same, pinsOf] using before
  | mark vb r seqno =>
    obtain ⟨pinned, rfl, _⟩ := exact.flow.mem_pins_of_mark able
    simp only [next, pinsOf, countP_erase_of_mem pinned]
    exact (s.cache.pending_markPersisted _ (exact.pending_pos pinned) key).trans (by rw [before]; rfl)
  | trim vb key' => exact ((s.cache.trim_evicts key').pending key).trans before
  | fillDoor i => exact ((s.cache.fillDoorkeeper_evicts _).pending key).trans before
  | fillInsert i => exact (s.cache.pending_fillInsert _ _ key).trans before
  | touch key' => exact ((s.cache.touch_evicts key').pending key).trans before
  | setBudget i maxBytes => exact ((s.cache.setBudget_evicts i maxBytes).pending key).trans before
  | _ => exact before

/-- A refused write stays alone on its key when another pin is released. -/
private theorem alone_erase (exact : s.PinsExact) {w r : Request} (pinned : w ∈ s.hist.pins)
    (refused : r ∈ s.hist.refused) (differ : w ≠ r) :
    (s.hist.pins.erase w).countP (fun x => x.docKey = r.docKey) = 1 := by
  have other : w.docKey ≠ r.docKey := fun same =>
    differ (eq_of_pinsOf_eq_one (exact.alone r refused) (exact.flow.accounts.mem_pins_of_refused refused) pinned same)
  have kept := countP_erase_of_mem pinned r.docKey
  rw [if_neg other] at kept
  exact kept.trans (exact.alone r refused)

private theorem alone_next (exact : s.PinsExact) (able : s.enabled e) (keeps : s.KeepsPins e) :
    ∀ r ∈ (s.next e).hist.refused, (s.next e).pinsOf r.docKey = 1 := by
  have accounts := exact.flow.accounts
  cases e with
  | put w cap =>
    intro r refused
    have other : w.docKey ≠ r.docKey := Ne.symm (keeps.2.1 w (List.mem_singleton_self w) r refused)
    simpa [pinsOf, next, List.countP_append, other] using exact.alone r refused
  | refuse w =>
    obtain ⟨handling, _⟩ := of_decide_eq_true able
    intro r refused
    rcases List.mem_append.mp refused with old | new
    · exact exact.alone r old
    · obtain rfl := List.mem_singleton.mp new
      exact pinsOf_eq_one accounts (accounts.mem_pins_of_handling handling)
        (keeps.1 r (List.mem_singleton_self r))
  | erase w =>
    have spurned := accounts.mem_refused_of_pc (of_decide_eq_true able)
    have once : (s.hist.refused.erase w).count w = 0 := by
      have := List.nodup_iff_count_le_one.mp accounts.pins_nodup w
      have := accounts.pins w
      have := accounts.refused w
      rw [List.count_erase_self]
      omega
    intro r refused
    apply alone_erase exact (accounts.mem_pins_of_refused spurned) (List.mem_of_mem_erase refused)
    rintro rfl
    exact List.count_eq_zero.mp once refused
  | mark vb w seqno =>
    obtain ⟨pinned, _, unrefused⟩ := exact.flow.mem_pins_of_mark able
    intro r refused
    apply alone_erase exact pinned refused
    rintro rfl
    exact unrefused refused
  | _ => exact exact.alone

private theorem wrapped_next (exact : s.PinsExact) (able : s.enabled e) : (s.next e).hist.wrapped = false := by
  cases e with
  | mark vb w seqno =>
    obtain ⟨pinned, rfl, _⟩ := exact.flow.mem_pins_of_mark able
    have positive := exact.pending_pos pinned
    obtain ⟨p, held, same⟩ := Contents.exists_of_pending_pos positive
    have resident : s.cache.contents (w.vbucket, w.key) = some p := held
    have nonzero : p.pending ≠ 0 := by omega
    simp only [next, exact.unwrapped, resident, Option.any_some, Bool.false_or, beq_eq_false_iff_ne]
    exact nonzero
  | _ => exact exact.unwrapped

/-- A server that has a cache keeps it. -/
theorem isSome_next (s : State cfg) (e : Event) : (s.next e).cache.docCache.isSome = s.cache.docCache.isSome := by
  cases e with
  | put | erase | mark | trim | fillDoor | fillInsert | touch | setBudget => exact s.cache.isSome_map _
  | _ => rfl

theorem PinsExact.step {t : State cfg} (exact : s.PinsExact) (keeps : s.KeepsPins e) (taken : s.step e = some t) :
    t.PinsExact := by
  have flow := exact.flow.step taken
  obtain ⟨able, rfl⟩ := step_eq_some.mp taken
  exact ⟨flow, (isSome_next s e).trans exact.cached, pending_next exact keeps.2.2 able, alone_next exact able keeps,
    wrapped_next exact able⟩

theorem PinsExact.initial {maxBytes : ℕ} (cached : 0 < maxBytes) (store : UInt16 → Store) (seqnos : UInt16 → ℕ) :
    (State.initial cfg maxBytes store seqnos).PinsExact :=
  ⟨.initial maxBytes store seqnos, BucketCache.isSome_start cached,
    fun _ => Contents.pending_eq_zero (BucketCache.contents_start ..), fun _ member => (List.not_mem_nil member).elim, rfl⟩

/-- The pin accounting of the contract: a key with outstanding writes is resident with that many pins,
and no pin count was ever decremented below zero. -/
def PinAccounting (s : State cfg) : Prop :=
  (∀ key, 1 ≤ s.outstanding key → ∃ p, s.cache.contents key = some p ∧ p.pending = s.outstanding key) ∧
    s.hist.wrapped = false

private theorem outstanding_lt {r : Request} (pinned : r ∈ s.hist.pins) (refused : r ∈ s.hist.refused) :
    s.outstanding r.docKey < s.pinsOf r.docKey := by
  have split := List.countP_eq_countP_filter_add s.hist.pins (fun w => decide (w.docKey = r.docKey))
    fun w => decide (w ∉ s.hist.refused)
  have excluded : 0 < (s.hist.pins.filter fun w => !decide (w ∉ s.hist.refused)).countP fun w => w.docKey = r.docKey :=
    List.countP_pos_iff.mpr ⟨r, List.mem_filter.mpr ⟨pinned, by simpa using refused⟩, by simp⟩
  rw [List.countP_filter] at split
  have same : s.outstanding r.docKey =
      s.hist.pins.countP fun w => decide (w.docKey = r.docKey) && decide (w ∉ s.hist.refused) := by
    simp only [outstanding, Bool.decide_and]
  rw [same]
  change _ < s.hist.pins.countP fun w => decide (w.docKey = r.docKey)
  omega

theorem PinsExact.accounting (exact : s.PinsExact) : s.PinAccounting := by
  refine ⟨fun key positive => ?_, exact.unwrapped⟩
  obtain ⟨r, pinned, here⟩ := List.countP_pos_iff.mp positive
  simp only [decide_eq_true_eq] at here
  obtain ⟨rfl, unrefused⟩ := here
  have all : s.outstanding r.docKey = s.pinsOf r.docKey := by
    apply List.countP_congr
    intro w inside
    simp only [decide_eq_true_eq, and_iff_left_iff_imp]
    intro same refused
    have equal := eq_of_pinsOf_eq_one (r := w) (same ▸ exact.alone w refused) inside pinned same.symm
    exact unrefused (equal ▸ refused)
  obtain ⟨p, held, count⟩ := Contents.exists_of_pending_pos (c := s.cache.contents) (k := r.docKey)
    (by rw [exact.pending, ← all]; exact positive)
  exact ⟨p, held, by rw [count, exact.pending, all]⟩

/-- A refused write that shares its key with another pinned write shows: the entry counts one pin more
than the key has outstanding writes. -/
private theorem not_accounting {r w : Request} (pending : s.cache.contents.pending r.docKey = s.pinsOf r.docKey)
    (pinned : r ∈ s.hist.pins) (refused : r ∈ s.hist.refused) (other : w ∈ s.hist.pins)
    (unrefused : w ∉ s.hist.refused) (same : w.docKey = r.docKey) : ¬ s.PinAccounting := by
  intro accounting
  have positive : 1 ≤ s.outstanding r.docKey := List.countP_pos_iff.mpr ⟨w, other, by simp [same, unrefused]⟩
  obtain ⟨p, held, count⟩ := accounting.1 r.docKey positive
  have fewer := outstanding_lt pinned refused
  rw [Contents.pending_of_eq held] at pending
  omega

/-- A put that wraps the pins of its key shows: the key has more outstanding writes than its entry can count. -/
private theorem not_accounting_of_wrap (exact : s.PinsExact) {w : Request} (cap : Option ℕ)
    (clear : ∀ r ∈ s.hist.refused, r.docKey ≠ w.docKey) (crowded : 2 ^ 32 ≤ s.pinsOf w.docKey + 1) :
    ¬ (s.next (.put w cap)).PinAccounting := by
  intro accounting
  have all : (s.next (.put w cap)).outstanding w.docKey = (s.hist.pins ++ [w]).countP fun r => r.docKey = w.docKey :=
    List.countP_congr fun r _ => by
      simp only [decide_eq_true_eq, and_iff_left_iff_imp]
      exact fun same refused => clear r refused same
  rw [List.countP_append, List.countP_singleton, if_pos (decide_eq_true rfl)] at all
  change _ = s.pinsOf w.docKey + 1 at all
  obtain ⟨p, held, count⟩ := accounting.1 w.docKey (by omega)
  have pins := (Contents.pending_of_eq held).symm.trans (s.cache.pending_put exact.cached w.docKey w.content cap w.docKey)
  rw [if_pos rfl, count, all] at pins
  have wrapped := Nat.mod_lt (s.cache.contents.pending w.docKey + 1) (Nat.two_pow_pos 32)
  rw [fetchAdd] at pins
  omega

private theorem PinsExact.exposed {t : State cfg} (exact : s.PinsExact) (breaks : ¬ s.KeepsPins e)
    (taken : s.step e = some t) : ¬ t.PinAccounting := by
  obtain ⟨able, rfl⟩ := step_eq_some.mp taken
  have accounts := exact.flow.accounts
  cases e with
  | put w cap =>
    obtain ⟨_, fresh, _⟩ := of_decide_eq_true able
    by_cases clear : ∀ r ∈ s.hist.refused, r.docKey ≠ w.docKey
    · refine not_accounting_of_wrap exact cap clear (Nat.not_lt.mp fun few => breaks ⟨?_, ?_, ?_⟩)
      · exact fun _ member => (List.not_mem_nil member).elim
      · exact fun _ member r refused => List.mem_singleton.mp member ▸ clear r refused
      · exact fun _ member => List.mem_singleton.mp member ▸ few
    -- a refused write is alone with its key, so the put is far from the last pin
    obtain ⟨r, refused, same⟩ : ∃ r ∈ s.hist.refused, r.docKey = w.docKey := by simpa using clear
    have fits : s.FitsPins (.put w cap) := by
      intro _ member
      rw [List.mem_singleton.mp member, ← same, exact.alone r refused]
      decide
    have unrefused : w ∉ s.hist.refused := fun member => by
      have := accounts.ids w (accounts.mem_puts_of_refused member)
      omega
    exact not_accounting (pending_next exact fits able r.docKey)
      (List.mem_append_left _ (accounts.mem_pins_of_refused refused)) refused
      (List.mem_append_right _ (List.mem_singleton_self w)) unrefused same.symm
  | refuse r =>
    obtain ⟨handling, _⟩ := of_decide_eq_true able
    have pinned := accounts.mem_pins_of_handling handling
    have clash : ∃ w ∈ s.hist.pins, w.docKey = r.docKey ∧ w ≠ r := by
      by_contra none
      refine breaks ⟨fun r' member w inside same => ?_, fun _ member => (List.not_mem_nil member).elim,
        fun _ member => (List.not_mem_nil member).elim⟩
      obtain rfl := List.mem_singleton.mp member
      by_contra differ
      exact none ⟨w, inside, same, differ⟩
    obtain ⟨w, inside, same, differ⟩ := clash
    have unrefused : w ∉ s.hist.refused ++ [r] := by
      intro member
      rcases List.mem_append.mp member with old | new
      · exact differ (eq_of_pinsOf_eq_one (exact.alone w old) inside pinned same.symm).symm
      · exact differ (List.mem_singleton.mp new)
    have own := List.mem_append_right s.hist.refused (List.mem_singleton_self r)
    have pending := pending_next exact (fun _ member => (List.not_mem_nil member).elim) able r.docKey
    exact not_accounting pending pinned own inside unrefused same
  | _ =>
    exact (breaks ⟨fun _ member => (List.not_mem_nil member).elim, fun _ member => (List.not_mem_nil member).elim,
      fun _ member => (List.not_mem_nil member).elim⟩).elim

/-- On a server with a cache, the pin accounting holds throughout a run exactly if each of its steps leaves a
refused write alone with its key, from its refusal to its erase, and no put wraps the pins of its key. -/
theorem pins_exact_iff {maxBytes : ℕ} (cached : 0 < maxBytes) {store : UInt16 → Store} {seqnos : UInt16 → ℕ}
    {tape : List Event} {t : State cfg} (run : exec State.step (State.initial cfg maxBytes store seqnos) tape = some t) :
    Along State.step PinAccounting (State.initial cfg maxBytes store seqnos) tape ↔
      exec (restrict KeepsPins State.step) (State.initial cfg maxBytes store seqnos) tape = some t :=
  along_iff_restrict (PinsExact.initial cached store seqnos) (fun exact keeps taken => exact.step keeps taken)
    PinsExact.accounting (fun exact breaks taken => exact.exposed breaks taken) run

end State

/-- A queue with room for one write of the key `k`. -/
def crampedConfig : Config := { plainConfig with writeQueueMemLimit := 4 }

/-- A refused write of a key that no other write pins leaves the accounts in order. -/
theorem pins_exact_lone_refusal : ∃ t : State crampedConfig, ∃ tape : List Event,
    exec State.step (plainStart crampedConfig 1000) tape = some t ∧ t.hist.marked = [plainSet 0 0 1] ∧
      Along State.step State.PinAccounting (plainStart crampedConfig 1000) tape := by
  let tape : List Event := [.put (plainSet 0 0 1) none, .accept (plainSet 0 0 1),
    .put ⟨1, 0, 0, [108], .delete, none⟩ none, .refuse ⟨1, 0, 0, [108], .delete, none⟩,
    .erase ⟨1, 0, 0, [108], .delete, none⟩, .charge 0, .push 0 0, .flushed 0, .sweep 0, .write 0 true,
    .mark 0 (plainSet 0 0 1) 1, .settle 0]
  obtain ⟨t, run, marked⟩ : ∃ t,
      exec (restrict State.KeepsPins State.step) (plainStart crampedConfig 1000) tape = some t ∧
        t.hist.marked = [plainSet 0 0 1] := exists_exec (by decide +kernel)
  exact ⟨t, tape, exec_of_restrict run, marked, (State.pins_exact_iff (by decide) (exec_of_restrict run)).mpr run⟩

/-- A second write of a key is refused while the first is still queued. Its erase drops the first one's
pin with the entry: an accepted write is outstanding and its key is not resident. A read of the key then
fills the cache, and the acknowledgement of the first write takes the fill's pin count below zero. -/
theorem refused_write_drops_pins :
    (∃ s, Reach State.step (plainStart crampedConfig 1000) s ∧ s.hist.accepted = [plainSet 0 0 1] ∧
      s.hist.marked = [] ∧ s.outstanding (0, [107]) = 1 ∧ s.cache.contents (0, [107]) = none) ∧
    ∃ s, Reach State.step (plainStart crampedConfig 1000) s ∧ s.hist.wrapped = true ∧
      s.cache.contents (0, [107]) = some ⟨⟨1, (plainSet 0 0 1).content⟩, 2 ^ 32 - 1⟩ := by
  let refusal : List Event := [.put (plainSet 0 0 1) none, .accept (plainSet 0 0 1), .put (plainSet 1 0 2) none,
    .refuse (plainSet 1 0 2), .erase (plainSet 1 0 2)]
  let fill : List Event := [.charge 0, .push 0 0, .flushed 0, .sweep 0, .write 0 true, .enqueueRead 0 (0, [107]),
    .readTake 0 ⟨1, (plainSet 0 0 1).content⟩, .fillCheck 0, .fillInsert 0, .mark 0 (plainSet 0 0 1) 1]
  exact ⟨exists_reach refusal (by decide +kernel), exists_reach (refusal ++ fill) (by decide +kernel)⟩

end FluxKV.Engine
