import FluxKV.Server.Reservations

/-! # Loops that are taken down

`Reap` reads the connection count, the reservations and the holds of a retiring loop one after the other, so a
connection that arrives in between can make a loop look empty once. A loop that has looked empty once has no
reservation left and gets none, so nothing arrives there any more, and at the second look the counts are exact.
-/

namespace FluxKV.Server.State

open Machine

variable {s t : State} {e : Event} {i l : ℕ}

/-- No connection is on the loop. -/
def Vacant (s : State) (l : ℕ) : Prop := ∀ c ∈ s.conns, c.owner ≠ some l

/-- An open connection with a request in flight is on the loop that answers it. -/
def Attached (s : State) : Prop :=
  ∀ r ∈ s.reqs, ∃ c, s.conns[r.conn]? = some c ∧ (c.closing = true ∨ c.owner = some r.evb)

/-- The durable writes in flight that are answered on a loop. -/
def writes (s : State) (l : ℕ) : ℕ := s.reqs.countP fun r => r.kind = .write ∧ r.evb = l

/-- What `Reap` knows of the loop it looks at. A load of zero is exact if it has seen one before. -/
def Looked (s : State) : Prop :=
  match s.tuner with
  | .visiting sweep (.conns n) => (s.loops sweep.next).phase = .running ∧ (s.loops sweep.next).retiring = true ∧ 0 ≤ n ∧
      (0 < (s.loops sweep.next).emptyTicks → n = 0 → s.Vacant sweep.next)
  | .visiting sweep .empty => (s.loops sweep.next).phase = .running ∧ (s.loops sweep.next).retiring = true ∧
      (s.loops sweep.next).pending = 0 ∧ (0 < (s.loops sweep.next).emptyTicks → s.Vacant sweep.next)
  | _ => True

/-- The lists of `Reap`. -/
structure Sorted (s : State) (sweep : Sweep) : Prop where
  live : ∀ l ∈ sweep.live, (s.loops l).phase = .running ∧ (s.loops l).retiring = false
  stuck : ∀ l ∈ sweep.stuck, (s.loops l).phase = .running
  done : ∀ l ∈ sweep.done, (s.loops l).phase ≠ .running

def Swept (s : State) : Prop :=
  match s.tuner with
  | .idle => True
  | .visiting sweep _ => s.Sorted sweep ∧ ∀ l ∈ sweep.stuck, l < sweep.next
  | .joining sweep => s.Sorted sweep

theorem Looked.of_free (free : s.tuner.locks = false) : s.Looked := by
  unfold Looked
  cases tuner : s.tuner with
  | idle | joining sweep => trivial
  | visiting sweep look =>
    rw [tuner] at free
    cases free

theorem Sorted.congr {sweep : Sweep} (sorted : s.Sorted sweep)
    (loops : ∀ l, (t.loops l).phase = (s.loops l).phase ∧ (t.loops l).retiring = (s.loops l).retiring) :
    t.Sorted sweep where
  live l member := by
    rw [(loops l).1, (loops l).2]
    exact sorted.live l member
  stuck l member := (loops l).1.trans (sorted.stuck l member)
  done l member := (loops l).1.trans_ne (sorted.done l member)

theorem Swept.congr (swept : s.Swept) (tuner : t.tuner = s.tuner)
    (loops : ∀ l, (t.loops l).phase = (s.loops l).phase ∧ (t.loops l).retiring = (s.loops l).retiring) : t.Swept := by
  unfold Swept at swept ⊢
  rw [tuner]
  split at swept
  · trivial
  · exact ⟨swept.1.congr loops, swept.2⟩
  · exact swept.congr loops

/-- A loop that was taken down is empty for good, and so is, but for connections that are still there, one that has
looked empty. -/
structure Reaping (s : State) : Prop where
  reaped : ∀ l, (s.loops l).phase ≠ .running → (s.loops l).retiring = true ∧ s.Vacant l ∧ (s.loops l).pending = 0 ∧
    (s.loops l).holds = 0
  held : ∀ l, (s.loops l).holds = s.writes l
  attached : s.Attached
  ticks : ∀ l, 0 < (s.loops l).emptyTicks → (s.loops l).retiring = true ∧ (s.loops l).pending = 0 ∧
    s.acceptor ≠ .picked l
  picked : ∀ l, s.acceptor = .picked l → (s.loops l).phase = .running ∧ s.tuner.locks = false
  looked : s.Looked
  swept : s.Swept

theorem Reaping.initial (size : ℕ) : (initial size).Reaping where
  reaped l gone := (gone rfl).elim
  held _ := rfl
  attached := by rintro _ ⟨⟩
  ticks l some := absurd some (Nat.lt_irrefl 0)
  picked := by rintro _ ⟨⟩
  looked := trivial
  swept := trivial

/-- Nothing is reserved and no loop is retired or taken down. -/
structure Calm (s t : State) : Prop where
  loops : ∀ l, (t.loops l).phase = (s.loops l).phase ∧ (t.loops l).retiring = (s.loops l).retiring ∧
    (t.loops l).emptyTicks = (s.loops l).emptyTicks
  pending : ∀ l, (t.loops l).pending ≤ (s.loops l).pending
  vacant : ∀ l, (s.loops l).pending = 0 → s.Vacant l → t.Vacant l
  holds : ∀ l, s.Vacant l → (s.loops l).holds = 0 → (t.loops l).holds = 0
  acceptor : ∀ l, t.acceptor = .picked l → s.acceptor = .picked l
  tuner : t.tuner = s.tuner

theorem Reaping.calm (reaping : s.Reaping) (calm : s.Calm t) (ledger : t.Ledger)
    (held : ∀ l, (t.loops l).holds = t.writes l) (attached : t.Attached) : t.Reaping := by
  have zero : ∀ l, (s.loops l).pending = 0 → (t.loops l).pending = 0 := by
    intro l none
    have fewer := calm.pending l
    have counted := ledger.counted l
    omega
  refine ⟨fun l gone => ?_, held, attached, fun l some => ?_, fun l picked => ?_, ?_, ?_⟩
  · obtain ⟨phase, retiring, _⟩ := calm.loops l
    obtain ⟨retired, vacant, pending, holds⟩ := reaping.reaped l (phase ▸ gone)
    exact ⟨retiring.trans retired, calm.vacant l pending vacant, zero l pending, calm.holds l vacant holds⟩
  · obtain ⟨_, retiring, ticks⟩ := calm.loops l
    obtain ⟨retired, pending, acceptor⟩ := reaping.ticks l (ticks ▸ some)
    exact ⟨retiring.trans retired, zero l pending, fun picked => acceptor (calm.acceptor l picked)⟩
  · obtain ⟨running, free⟩ := reaping.picked l (calm.acceptor l picked)
    exact ⟨(calm.loops l).1.trans running, calm.tuner ▸ free⟩
  · have looked := reaping.looked
    unfold Looked at looked ⊢
    rw [calm.tuner]
    split at looked
    · next sweep n _ =>
      obtain ⟨phase, retiring, ticks⟩ := calm.loops sweep.next
      rw [phase, retiring, ticks]
      refine ⟨looked.1, looked.2.1, looked.2.2.1, fun some none => ?_⟩
      exact calm.vacant _ (reaping.ticks _ some).2.1 (looked.2.2.2 some none)
    · next sweep _ =>
      obtain ⟨phase, retiring, ticks⟩ := calm.loops sweep.next
      rw [phase, retiring, ticks]
      exact ⟨looked.1, looked.2.1, zero _ looked.2.2.1, fun some =>
        calm.vacant _ looked.2.2.1 (looked.2.2.2 some)⟩
    · trivial
  · exact reaping.swept.congr calm.tuner fun l => ⟨(calm.loops l).1, (calm.loops l).2.1⟩

/-! ## The loops and their connections -/

theorem Ledger.pending_pos (ledger : s.Ledger) (outstanding : l ∈ s.reserved) : 0 < (s.loops l).pending := by
  rw [ledger.counted l]
  exact Int.natCast_pos.mpr (List.count_pos_iff.mpr outstanding)

/-- A closure that brings a connection has reserved the loop. -/
private theorem Ledger.pending_pos_of_mail (ledger : s.Ledger) {mail : Mail} (here : s.mail[i]? = some mail)
    (brings : l ∈ mail.reserved) : 0 < (s.loops l).pending := by
  refine ledger.pending_pos (List.mem_append_left _ (List.mem_append_right _ ?_))
  exact List.mem_flatMap.mpr ⟨mail, List.mem_of_getElem? here, brings⟩

private theorem Vacant.set {c : Connection} (vacant : s.Vacant l) (detached : c.owner ≠ some l) :
    ∀ c' ∈ s.conns.set i c, c'.owner ≠ some l :=
  forall_mem_set detached vacant

private theorem Attached.set {c : Connection} (attached : s.Attached) (here : i < s.conns.length)
    (own : ∀ r ∈ s.reqs, r.conn = i → c.closing = true ∨ c.owner = some r.evb) :
    ∀ r ∈ s.reqs, ∃ c', (s.conns.set i c)[r.conn]? = some c' ∧ (c'.closing = true ∨ c'.owner = some r.evb) := by
  intro r member
  rcases eq_or_ne i r.conn with same | other
  · exact ⟨c, same ▸ List.getElem?_set_self here, own r member same.symm⟩
  · obtain ⟨c', there, place⟩ := attached r member
    exact ⟨c', (List.getElem?_set_ne other).trans there, place⟩

private theorem sub_count_le (dests : List ℕ) (l : ℕ) (n : ℤ) : n - (dests.count l : ℕ) ≤ n := by omega

private theorem Reaping.start (reaping : s.Reaping) (ledger : s.Ledger) {iot : ℕ}
    (able : s.enabled (.run i ⟨iot, .start⟩)) : (s.next (.run i ⟨iot, .start⟩)).Reaping := by
  have pending := ledger.pending_pos_of_mail able.1 List.mem_cons_self
  refine reaping.calm ⟨fun _ => ⟨rfl, rfl, rfl⟩, fun l => sub_count_le .., ?_, fun _ _ none => none, fun _ same => same,
    rfl⟩ (ledger.next able) reaping.held ?_
  · intro l none vacant
    refine List.forall_mem_append.mpr ⟨vacant, fun c member => ?_⟩
    rw [List.mem_singleton.mp member]
    rintro ⟨⟩
    exact absurd none pending.ne.symm
  · intro r member
    obtain ⟨c, there, place⟩ := reaping.attached r member
    exact ⟨c, (List.getElem?_append_left (List.getElem?_eq_some_iff.mp there).1).trans there, place⟩

/-- A plan leaves the connections on their loops. -/
private theorem Reaping.migrate (reaping : s.Reaping) (ledger : s.Ledger) {donor : ℕ} {dests : List ℕ}
    (able : s.enabled (.run i ⟨donor, .migrate dests⟩)) : (s.next (.run i ⟨donor, .migrate dests⟩)).Reaping := by
  have places := runPlan_places donor s.conns dests
  refine reaping.calm ⟨fun _ => ⟨rfl, rfl, rfl⟩, fun l => sub_count_le .., ?_, fun _ _ none => none, fun _ same => same,
    rfl⟩ (ledger.next able) reaping.held ?_
  · intro l _ vacant c member there
    obtain ⟨c', member', same⟩ := List.mem_map.mp (places ▸ List.mem_map_of_mem member)
    exact vacant c' member' ((congrArg Prod.fst same).trans there)
  · intro r member
    obtain ⟨c, there, place⟩ := reaping.attached r member
    obtain ⟨c', there', owner, closing⟩ := runPlan_getElem? donor there dests
    exact ⟨c', there', owner ▸ closing ▸ place⟩

private theorem Reaping.finishAttach (reaping : s.Reaping) (ledger : s.Ledger) {iot j : ℕ}
    (able : s.enabled (.run i ⟨iot, .finishAttach j⟩)) : (s.next (.run i ⟨iot, .finishAttach j⟩)).Reaping := by
  have pending := ledger.pending_pos_of_mail able.1 List.mem_cons_self
  obtain ⟨c, there, detached, opened⟩ := ledger.arriving _ (List.mem_of_getElem? able.1) j rfl
  have conns := conns_finishAttach i iot there
  refine reaping.calm ⟨fun _ => ⟨rfl, rfl, rfl⟩, fun l => sub_count_le .., ?_, fun _ _ none => none, fun _ same => same,
    rfl⟩ (ledger.next able) reaping.held ?_
  · intro l none vacant
    unfold Vacant
    rw [conns]
    refine vacant.set ?_
    rintro ⟨⟩
    omega
  · unfold Attached
    rw [conns]
    refine reaping.attached.set (List.getElem?_eq_some_iff.mp there).1 fun r member same => ?_
    -- a connection that arrives has nothing in flight
    obtain ⟨c', there', place⟩ := reaping.attached r member
    rw [same, there] at there'
    cases there'
    rw [opened, detached] at place
    simp only [Bool.false_eq_true, reduceCtorEq, or_self] at place

private theorem Reaping.finishMigrate (reaping : s.Reaping) (ledger : s.Ledger) {c : Connection} {target : ℕ}
    (able : s.enabled (.finishMigrate i c target)) : (s.next (.finishMigrate i c target)).Reaping := by
  have next := ledger.next able
  obtain ⟨here, _, _, _, _, none⟩ := able
  refine reaping.calm ⟨fun _ => ⟨rfl, rfl, rfl⟩, fun l => le_rfl, fun l _ vacant => vacant.set (by rintro ⟨⟩),
    fun _ _ none => none, fun _ same => same, rfl⟩ next reaping.held ?_
  exact reaping.attached.set (List.getElem?_eq_some_iff.mp here).1 fun r member same => (none r member same).elim

private theorem Reaping.close (reaping : s.Reaping) (ledger : s.Ledger) {c : Connection}
    (able : s.enabled (.close i c)) : (s.next (.close i c)).Reaping := by
  refine reaping.calm ⟨fun _ => ⟨rfl, rfl, rfl⟩, fun l => sub_count_le .., fun l _ vacant => vacant.set (by rintro ⟨⟩),
    fun _ _ none => none, fun _ same => same, rfl⟩ (ledger.next able) reaping.held ?_
  exact reaping.attached.set (List.getElem?_eq_some_iff.mp able.1).1 fun _ _ _ => .inl rfl

/-! ## Requests -/

private theorem writes_append (s : State) (r : Request) (l : ℕ) :
    (s.reqs ++ [r]).countP (fun r => r.kind = .write ∧ r.evb = l) =
      s.writes l + if r.kind = .write ∧ r.evb = l then 1 else 0 := by
  rw [List.countP_append, List.countP_singleton]
  simp only [decide_eq_true_eq]
  rfl

private theorem writes_erase {r : Request} (here : s.reqs[i]? = some r) (l : ℕ) :
    s.writes l = (s.reqs.eraseIdx i).countP (fun r => r.kind = .write ∧ r.evb = l) +
      if r.kind = .write ∧ r.evb = l then 1 else 0 := by
  obtain ⟨inside, rfl⟩ := List.getElem?_eq_some_iff.mp here
  have same := (List.getElem_cons_eraseIdx_perm inside).countP_eq fun r => r.kind = .write ∧ r.evb = l
  rw [List.countP_cons] at same
  simp only [decide_eq_true_eq] at same
  exact same.symm

/-- The new request is answered on the loop its connection is on. -/
private theorem Attached.append {c : Connection} {r : Request} (attached : s.Attached) (here : s.conns[r.conn]? = some c)
    (own : c.owner = some r.evb) :
    ∀ r' ∈ s.reqs ++ [r], ∃ c, s.conns[r'.conn]? = some c ∧ (c.closing = true ∨ c.owner = some r'.evb) := by
  refine List.forall_mem_append.mpr ⟨attached, fun r' member => ?_⟩
  rw [List.mem_singleton.mp member]
  exact ⟨c, here, .inr own⟩

/-- The holds of a loop change with the durable writes that wait there. -/
private theorem Reaping.setHolds (reaping : s.Reaping) {iot : ℕ} {holds : ℤ} {reqs : List Request}
    (ledger : { s.setLoop iot { s.loops iot with holds } with reqs }.Ledger)
    (empty : s.Vacant iot → (s.loops iot).holds = 0 → holds = 0)
    (here : holds = reqs.countP fun r => r.kind = .write ∧ r.evb = iot)
    (there : ∀ l ≠ iot, s.writes l = reqs.countP fun r => r.kind = .write ∧ r.evb = l)
    (attached : { s with reqs }.Attached) : { s.setLoop iot { s.loops iot with holds } with reqs }.Reaping := by
  refine reaping.calm ⟨fun l => ⟨apply_setLoop IOThread.phase (by rfl) l, apply_setLoop IOThread.retiring (by rfl) l,
    apply_setLoop IOThread.emptyTicks (by rfl) l⟩, fun l => le_of_eq (apply_setLoop IOThread.pending (by rfl) l),
    fun _ _ vacant => vacant, fun l vacant none => ?_, fun _ same => same, rfl⟩ ledger (fun l => ?_) attached
  · exact forall_setLoop (P := fun l loop => s.Vacant l → (s.loops l).holds = 0 → loop.holds = 0) empty
      (fun _ _ _ none => none) l vacant none
  · refine forall_setLoop (P := fun l loop => loop.holds = reqs.countP fun r => r.kind = .write ∧ r.evb = l) here
      (fun l other => ?_) l
    rw [reaping.held l, there l other]

private theorem Reaping.get (reaping : s.Reaping) (ledger : s.Ledger) {c : Connection} {iot : ℕ}
    (able : s.enabled (.get i c iot)) : (s.next (.get i c iot)).Reaping := by
  refine reaping.calm ⟨fun _ => ⟨rfl, rfl, rfl⟩, fun _ => le_rfl, fun _ _ vacant => vacant, fun _ _ none => none,
    fun _ same => same, rfl⟩ (ledger.next able) (fun l => ?_) (reaping.attached.append able.1 able.2.2.2)
  exact (reaping.held l).trans (congrArg _ (writes_append s ⟨.get, i, iot⟩ l).symm)

private theorem Reaping.write (reaping : s.Reaping) (ledger : s.Ledger) {c : Connection} {iot : ℕ}
    (able : s.enabled (.write i c iot)) : (s.next (.write i c iot)).Reaping := by
  have added := writes_append s ⟨.write, i, iot⟩
  refine reaping.setHolds (ledger.next able) (fun vacant _ => ?_) ?_ (fun l other => ?_)
    (reaping.attached.append able.1 able.2.2.2)
  · exact absurd able.2.2.2 (vacant c (List.mem_of_getElem? able.1))
  · rw [added, if_pos ⟨rfl, rfl⟩, reaping.held iot]
    rfl
  · rw [added, if_neg fun same => other same.2.symm]
    rfl

private theorem Reaping.answer (reaping : s.Reaping) (ledger : s.Ledger) {r : Request} (able : s.enabled (.answer i r)) :
    (s.next (.answer i r)).Reaping := by
  have erased := writes_erase able.1
  have attached : { s with reqs := s.reqs.eraseIdx i }.Attached := fun r member =>
    reaping.attached r (List.mem_of_mem_eraseIdx member)
  have next := ledger.next able
  obtain ⟨kind, conn, evb⟩ := r
  cases kind with
  | get =>
    refine reaping.calm ⟨fun _ => ⟨rfl, rfl, rfl⟩, fun _ => le_rfl, fun _ _ vacant => vacant, fun _ _ none => none,
      fun _ same => same, rfl⟩ next (fun l => ?_) attached
    exact (reaping.held l).trans (congrArg _ (erased l))
  | write =>
    have here := erased evb
    have held := reaping.held evb
    rw [if_pos ⟨rfl, rfl⟩] at here
    refine reaping.setHolds next (fun _ none => ?_) ?_ (fun l other => ?_) attached
    · dsimp only at none ⊢
      omega
    · dsimp only
      omega
    · rw [erased l, if_neg fun same => other same.2.symm]
      rfl

/-! ## Accepts and plans -/

theorem mem_live : l ∈ s.live ↔ l < s.size ∧ (s.loops l).phase = .running ∧ (s.loops l).retiring = false := by
  unfold live
  rw [List.mem_filter, List.mem_range, decide_eq_true_eq]

theorem mem_of_mem_planMoves {observed : ℕ → ℕ → ℤ} {k : ℕ} {loops : List ℕ} (planned : l ∈ planMoves observed k loops) :
    l ∈ loops := by
  obtain ⟨i, _, chosen⟩ := List.mem_filterMap.mp planned
  exact mem_of_leastLoaded chosen

theorem mem_of_mem_rebalance {live : List ℕ} {loads : ℕ → ℤ} (planned : l ∈ (rebalance live loads).flatMap Prod.snd) :
    l ∈ live := by
  unfold rebalance at planned
  split at planned
  · cases planned
  · obtain ⟨plan, member, inside⟩ := List.mem_flatMap.mp planned
    obtain ⟨donor, _, rfl⟩ := List.mem_map.mp member
    obtain ⟨move, _, found⟩ := List.mem_filterMap.mp inside
    dsimp only at found
    split at found
    · exact List.mem_of_getElem? found
    · cases found

/-- A loop that has not looked empty may be reserved. -/
def Reservable (s : State) (l : ℕ) : Prop := (s.loops l).phase = .running ∧ (s.loops l).emptyTicks = 0

theorem Reaping.reservable (reaping : s.Reaping) (running : (s.loops l).phase = .running)
    (stays : (s.loops l).retiring = false) : s.Reservable l := by
  refine ⟨running, Nat.eq_zero_of_not_pos fun some => ?_⟩
  have retiring := (reaping.ticks l some).1
  rw [stays] at retiring
  cases retiring

/-- Loops are reserved while `Reap` does not look at any. -/
private theorem Reaping.reserve (reaping : s.Reaping) {dests : List ℕ} {mail : List Mail} {acceptor : Acceptor}
    (reservable : ∀ l ∈ dests, s.Reservable l) (free : s.tuner.locks = false)
    (picked : ∀ l, acceptor = .picked l → s.acceptor = .picked l) :
    { s.reserve dests with mail, acceptor }.Reaping := by
  have unreserved : ∀ l ∉ dests, (s.loops l).pending = 0 → (s.loops l).pending + dests.count l = 0 := by
    intro l other none
    rw [none, List.count_eq_zero.mpr other]
    rfl
  refine ⟨fun l gone => ?_, reaping.held, reaping.attached, fun l some => ?_,
    fun l now => reaping.picked l (picked l now), .of_free free, reaping.swept.congr rfl fun _ => ⟨rfl, rfl⟩⟩
  · obtain ⟨retired, vacant, none, holds⟩ := reaping.reaped l gone
    exact ⟨retired, vacant, unreserved l (fun member => gone (reservable l member).1) none, holds⟩
  · obtain ⟨retired, none, other⟩ := reaping.ticks l some
    exact ⟨retired, unreserved l (fun member => some.ne (reservable l member).2.symm) none,
      fun now => other (picked l now)⟩

private theorem Reaping.pick (reaping : s.Reaping) {observed : ℕ → ℤ} {iot : ℕ} (able : s.enabled (.pick observed iot)) :
    (s.next (.pick observed iot)).Reaping := by
  obtain ⟨_, running, stays⟩ := mem_live.mp (mem_of_leastLoaded able.2.2)
  refine ⟨reaping.reaped, reaping.held, reaping.attached, fun l some => ?_, fun l now => ?_, .of_free able.2.1,
    reaping.swept.congr rfl fun _ => ⟨rfl, rfl⟩⟩
  · obtain ⟨retired, none, _⟩ := reaping.ticks l some
    refine ⟨retired, none, ?_⟩
    rintro ⟨⟩
    exact absurd retired (by rw [stays]; decide)
  · cases now
    exact ⟨running, able.2.1⟩

private theorem Reaping.reservePicked (reaping : s.Reaping) {iot : ℕ} (able : s.enabled (.reserve iot)) :
    (s.next (.reserve iot)).Reaping := by
  obtain ⟨running, free⟩ := reaping.picked iot able
  refine reaping.reserve (fun l member => ?_) free (by rintro _ ⟨⟩)
  rw [List.mem_singleton.mp member]
  exact ⟨running, Nat.eq_zero_of_not_pos fun some => (reaping.ticks iot some).2.2 able⟩

private theorem Reaping.post (reaping : s.Reaping) (ledger : s.Ledger) {iot : ℕ} (able : s.enabled (.post iot)) :
    (s.next (.post iot)).Reaping :=
  reaping.calm ⟨fun _ => ⟨rfl, rfl, rfl⟩, fun _ => le_rfl, fun _ _ vacant => vacant, fun _ _ none => none,
    by rintro _ ⟨⟩, rfl⟩ (ledger.next able) reaping.held reaping.attached

private theorem Reaping.postMigrations (reaping : s.Reaping) {plans : List (ℕ × List ℕ)} (free : s.tuner.locks = false)
    (reservable : ∀ l ∈ plans.flatMap Prod.snd, s.Reservable l) : (s.postMigrations plans).Reaping :=
  reaping.reserve reservable free fun _ now => now

private theorem Reaping.rebalance (reaping : s.Reaping) {loads : ℕ → ℤ} (free : s.tuner.locks = false) :
    (s.postMigrations (rebalance s.live loads)).Reaping := by
  refine reaping.postMigrations free fun l planned => ?_
  obtain ⟨_, running, stays⟩ := mem_live.mp (mem_of_mem_rebalance planned)
  exact reaping.reservable running stays

/-- `Shrink` has the loops it retires looked at afresh. -/
private theorem Reaping.retire (reaping : s.Reaping) (idle : s.tuner = .idle) (retiring : List ℕ) :
    (s.retire retiring).Reaping := by
  have same : ∀ l, ((s.retire retiring).loops l).phase = (s.loops l).phase ∧
      ((s.retire retiring).loops l).pending = (s.loops l).pending ∧
      ((s.retire retiring).loops l).holds = (s.loops l).holds ∧
      ((s.loops l).retiring = true → ((s.retire retiring).loops l).retiring = true) ∧
      ((s.retire retiring).loops l).emptyTicks ≤ (s.loops l).emptyTicks := by
    intro l
    simp only [State.retire]
    split
    · exact ⟨rfl, rfl, rfl, fun _ => rfl, Nat.zero_le _⟩
    · exact ⟨rfl, rfl, rfl, id, le_rfl⟩
  refine ⟨fun l gone => ?_, fun l => ?_, reaping.attached, fun l some => ?_, fun l now => ?_, ?_, ?_⟩
  · obtain ⟨phase, pending, holds, kept, _⟩ := same l
    obtain ⟨retired, vacant, none, empty⟩ := reaping.reaped l (phase ▸ gone)
    exact ⟨kept retired, vacant, pending.trans none, holds.trans empty⟩
  · exact (same l).2.2.1.trans (reaping.held l)
  · obtain ⟨_, pending, _, kept, fewer⟩ := same l
    obtain ⟨retired, none, other⟩ := reaping.ticks l (some.trans_le fewer)
    exact ⟨kept retired, pending.trans none, other⟩
  · exact ⟨(same l).1.trans (reaping.picked l now).1, (reaping.picked l now).2⟩
  · exact .of_free (congrArg Tuner.locks idle)
  · simp only [Swept, State.retire, idle]

private theorem Reaping.shrink (reaping : s.Reaping) (idle : s.tuner = .idle) (n : ℕ) (loads : ℕ → ℤ) (counts : ℕ → ℕ)
    (observed : ℕ → ℕ → ℕ → ℤ) : (s.shrink n loads counts observed).Reaping := by
  unfold State.shrink
  dsimp only
  split
  · exact reaping
  · refine (reaping.retire idle _).postMigrations (congrArg Tuner.locks idle) fun l planned => ?_
    obtain ⟨plan, member, planned⟩ := List.mem_flatMap.mp planned
    obtain ⟨donor, _, rfl⟩ := List.mem_map.mp member
    have remains := List.mem_of_mem_drop (mem_of_mem_planMoves planned)
    obtain ⟨_, running, stays⟩ := mem_live.mp (List.mem_insertionSort _ |>.mp remains)
    obtain ⟨_, fresh⟩ := reaping.reservable running stays
    simp only [Reservable, State.retire]
    split
    · exact ⟨running, rfl⟩
    · exact ⟨running, fresh⟩

/-! ## `Reap` -/

/-- The tuner goes on. -/
private theorem Reaping.goOn (reaping : s.Reaping) {tuner : Tuner}
    (unpicked : tuner.locks = true → ∀ l, s.acceptor ≠ .picked l)
    (looked : { s with tuner }.Looked) (swept : { s with tuner }.Swept) : { s with tuner }.Reaping :=
  ⟨reaping.reaped, reaping.held, reaping.attached, reaping.ticks, fun l now =>
    ⟨(reaping.picked l now).1, Bool.eq_false_iff.mpr fun locks => unpicked locks l now⟩, looked, swept⟩

/-- `Reap` and `pickIOThread` exclude each other. -/
private theorem Reaping.unpicked (reaping : s.Reaping) {sweep : Sweep} {look : Look}
    (visiting : s.tuner = .visiting sweep look) (l : ℕ) : s.acceptor ≠ .picked l := by
  intro now
  have free := (reaping.picked l now).2
  rw [visiting] at free
  cases free

private theorem Reaping.sorted (reaping : s.Reaping) {sweep : Sweep} {look : Look}
    (visiting : s.tuner = .visiting sweep look) : s.Sorted sweep ∧ ∀ l ∈ sweep.stuck, l < sweep.next := by
  have swept := reaping.swept
  rwa [Swept, visiting] at swept

private theorem Reaping.advance (reaping : s.Reaping) (unpicked : ∀ l, s.acceptor ≠ .picked l) {sweep : Sweep}
    (sorted : s.Sorted sweep) (behind : ∀ l ∈ sweep.stuck, l ≤ sweep.next) : (s.advance sweep).Reaping :=
  reaping.goOn (fun _ => unpicked) trivial
    ⟨⟨sorted.live, sorted.stuck, sorted.done⟩, fun l member => Nat.lt_succ_of_le (behind l member)⟩

private theorem Reaping.visit (reaping : s.Reaping) {sweep : Sweep} (able : s.enabled (.visit sweep)) :
    (s.visit sweep).Reaping := by
  have unpicked := reaping.unpicked able.1
  obtain ⟨sorted, behind⟩ := reaping.sorted able.1
  have behind' : ∀ l ∈ sweep.stuck, l ≤ sweep.next := fun l member => (behind l member).le
  unfold State.visit
  dsimp only
  split
  · exact reaping.advance unpicked sorted behind'
  · next running =>
    have running := of_not_not running
    split
    · next stays =>
      refine reaping.advance unpicked ⟨?_, sorted.stuck, sorted.done⟩ behind'
      exact List.forall_mem_append.mpr ⟨sorted.live, List.forall_mem_singleton.mpr ⟨running, stays⟩⟩
    · next retired =>
      refine reaping.goOn (fun _ => unpicked) ⟨running, Bool.eq_true_of_not_eq_false retired, Int.natCast_nonneg _, ?_⟩
        ⟨⟨sorted.live, sorted.stuck, sorted.done⟩, behind⟩
      intro _ none c member there
      exact List.countP_eq_zero.mp (Int.natCast_eq_zero.mp none) c member (decide_eq_true there)

/-- `Reap` notes for a loop what it has found. -/
private theorem Reaping.note (reaping : s.Reaping) {iot ticks : ℕ} {phase : Phase} {tuner : Tuner}
    (free : ∀ l, s.acceptor = .picked l → l ≠ iot ∧ tuner.locks = false)
    (some : 0 < ticks → (s.loops iot).retiring = true ∧ (s.loops iot).pending = 0)
    (gone : phase ≠ .running → (s.loops iot).retiring = true ∧ s.Vacant iot ∧ (s.loops iot).pending = 0 ∧
      (s.loops iot).holds = 0)
    (looked : { s.setLoop iot { s.loops iot with emptyTicks := ticks, phase } with tuner }.Looked)
    (swept : { s.setLoop iot { s.loops iot with emptyTicks := ticks, phase } with tuner }.Swept) :
    { s.setLoop iot { s.loops iot with emptyTicks := ticks, phase } with tuner }.Reaping := by
  refine ⟨?_, fun l => ?_, reaping.attached, ?_, fun l now => ⟨?_, (free l now).2⟩, looked, swept⟩
  · exact forall_setLoop (P := fun l loop => loop.phase ≠ .running → loop.retiring = true ∧ s.Vacant l ∧
      loop.pending = 0 ∧ loop.holds = 0) gone fun l _ => reaping.reaped l
  · exact (apply_setLoop IOThread.holds (by rfl) l).trans (reaping.held l)
  · exact forall_setLoop (P := fun l loop => 0 < loop.emptyTicks → loop.retiring = true ∧ loop.pending = 0 ∧
      s.acceptor ≠ .picked l) (fun more => ⟨(some more).1, (some more).2, fun now => (free iot now).1 rfl⟩)
      fun l _ => reaping.ticks l
  · exact forall_setLoop (P := fun l loop => s.acceptor = .picked l → loop.phase = .running)
      (fun now => ((free iot now).1 rfl).elim) (fun l _ now => (reaping.picked l now).1) l now

private theorem Reaping.readPending (reaping : s.Reaping) (ledger : s.Ledger) {sweep : Sweep} {n : ℤ}
    (able : s.enabled (.readPending sweep n)) : (s.readPending sweep n).Reaping := by
  have able : s.tuner = .visiting sweep (.conns n) := able
  have unpicked := reaping.unpicked able
  obtain ⟨sorted, behind⟩ := reaping.sorted able
  have looked := reaping.looked
  rw [Looked, able] at looked
  obtain ⟨running, retired, count, vacant⟩ := looked
  have counted := ledger.counted sweep.next
  unfold State.readPending
  dsimp only
  split
  · refine reaping.note (fun l now => (unpicked l now).elim) (fun more => absurd more (Nat.lt_irrefl 0))
      (reaping.reaped _) trivial ⟨?_, ?_⟩
    · have same := sorted.congr (t := s.setLoop sweep.next { s.loops sweep.next with emptyTicks := 0 }) fun l =>
        ⟨apply_setLoop IOThread.phase (by rfl) l, apply_setLoop IOThread.retiring (by rfl) l⟩
      refine ⟨same.live, List.forall_mem_append.mpr ⟨same.stuck, List.forall_mem_singleton.mpr ?_⟩, same.done⟩
      exact (apply_setLoop IOThread.phase (by rfl) _).trans running
    · refine List.forall_mem_append.mpr ⟨fun l member => Nat.lt_succ_of_lt (behind l member), ?_⟩
      exact List.forall_mem_singleton.mpr (Nat.lt_succ_self _)
  · next none =>
    have zero : n = 0 ∧ (s.loops sweep.next).pending = 0 := by omega
    exact reaping.goOn (fun _ => unpicked) ⟨running, retired, zero.2, fun more => vacant more zero.1⟩
      ⟨⟨sorted.live, sorted.stuck, sorted.done⟩, behind⟩

/-- A loop is taken down that is in neither of the other lists. -/
private theorem Sorted.takeDown {sweep : Sweep} (sorted : s.Sorted sweep) {iot : ℕ} {loop : IOThread}
    (gone : loop.phase ≠ .running) (live : iot ∉ sweep.live) (stuck : iot ∉ sweep.stuck) {done : List ℕ}
    (others : ∀ l ∈ done, l ≠ iot → l ∈ sweep.done) : (s.setLoop iot loop).Sorted { sweep with done } where
  live := forall_setLoop (P := fun l loop => l ∈ sweep.live → loop.phase = .running ∧ loop.retiring = false)
    (fun member => (live member).elim) fun l _ => sorted.live l
  stuck := forall_setLoop (P := fun l loop => l ∈ sweep.stuck → loop.phase = .running)
    (fun member => (stuck member).elim) fun l _ => sorted.stuck l
  done := forall_setLoop (P := fun l loop => l ∈ done → loop.phase ≠ .running) (fun _ => gone) fun l other member =>
    sorted.done l (others l member other)

/-- The loop goes when it has looked empty twice. -/
private theorem Reaping.readHolds (reaping : s.Reaping) {sweep : Sweep} (able : s.enabled (.readHolds sweep)) :
    (s.readHolds sweep).Reaping := by
  have able : s.tuner = .visiting sweep .empty := able
  have unpicked := reaping.unpicked able
  obtain ⟨sorted, behind⟩ := reaping.sorted able
  have looked := reaping.looked
  rw [Looked, able] at looked
  obtain ⟨running, retired, pending, vacant⟩ := looked
  have kept : ∀ ticks, (s.setLoop sweep.next { s.loops sweep.next with emptyTicks := ticks }).Sorted sweep :=
    fun ticks => sorted.congr fun l =>
      ⟨apply_setLoop IOThread.phase (by rfl) l, apply_setLoop IOThread.retiring (by rfl) l⟩
  have behind' : ∀ l ∈ sweep.stuck, l < sweep.next + 1 := fun l member => Nat.lt_succ_of_lt (behind l member)
  unfold State.readHolds
  dsimp only
  split
  · exact reaping.note (fun l now => (unpicked l now).elim) (fun more => absurd more (Nat.lt_irrefl 0))
      (reaping.reaped _) trivial ⟨⟨(kept 0).live, (kept 0).stuck, (kept 0).done⟩, behind'⟩
  · next empty =>
    split
    · exact reaping.note (fun l now => (unpicked l now).elim) (fun _ => ⟨retired, pending⟩) (reaping.reaped _) trivial
        ⟨⟨(kept _).live, (kept _).stuck, (kept _).done⟩, behind'⟩
    · next twice =>
      have held := reaping.held sweep.next
      have down : (s.setLoop sweep.next { s.loops sweep.next with
          emptyTicks := (s.loops sweep.next).emptyTicks + 1, phase := .erased }).Sorted
            { sweep with done := sweep.done ++ [sweep.next] } := sorted.takeDown (by rintro ⟨⟩)
        (fun member => absurd retired (by rw [(sorted.live _ member).2]; decide))
        (fun member => absurd (behind _ member) (Nat.lt_irrefl _))
        (fun l member other => (List.mem_append.mp member).resolve_right fun now => other (List.mem_singleton.mp now))
      exact reaping.note (fun l now => (unpicked l now).elim) (fun _ => ⟨retired, pending⟩)
        (fun _ => ⟨retired, vacant (by omega), pending, by omega⟩) trivial ⟨⟨down.live, down.stuck, down.done⟩, behind'⟩

private theorem Reaping.join (reaping : s.Reaping) {sweep : Sweep} {iot : ℕ} {rest : List ℕ}
    (able : s.enabled (.join sweep iot rest)) : (s.next (.join sweep iot rest)).Reaping := by
  obtain ⟨joining, done⟩ := able
  have sorted := reaping.swept
  rw [Swept, joining] at sorted
  have away := sorted.done iot (done ▸ List.mem_cons_self)
  have down : (s.setLoop iot { s.loops iot with phase := .joined }).Sorted { sweep with done := rest } :=
    sorted.takeDown (by rintro ⟨⟩) (fun member => away (sorted.live iot member).1)
      (fun member => away (sorted.stuck iot member)) fun l member _ => done ▸ List.mem_cons_of_mem _ member
  exact reaping.note (fun l now => ⟨fun same => away (same ▸ (reaping.picked l now).1), rfl⟩)
    (fun more => ⟨(reaping.ticks iot more).1, (reaping.ticks iot more).2.1⟩) (fun _ => reaping.reaped iot away) trivial
    ⟨down.live, down.stuck, down.done⟩

private theorem Reaping.replan (reaping : s.Reaping) {sweep : Sweep} {inFlight : Bool} {counts : ℕ → ℕ}
    {observed : ℕ → ℕ → ℕ → ℤ} {loads : ℕ → ℤ} (able : s.enabled (.replan sweep inFlight counts observed loads)) :
    (s.replan sweep inFlight counts observed loads).Reaping := by
  have sorted := reaping.swept
  rw [Swept, able.1] at sorted
  have idle : { s with tuner := .idle }.Reaping := reaping.goOn (by rintro ⟨⟩) trivial trivial
  unfold State.replan
  dsimp only
  split
  · exact idle
  · split
    · exact idle.rebalance rfl
    · refine idle.postMigrations rfl fun l planned => ?_
      obtain ⟨plan, member, planned⟩ := List.mem_flatMap.mp planned
      obtain ⟨donor, _, rfl⟩ := List.mem_map.mp member
      obtain ⟨running, stays⟩ := sorted.live l (mem_of_mem_planMoves planned)
      exact idle.reservable running stays

theorem Reaping.next (reaping : s.Reaping) (ledger : s.Ledger) (able : s.enabled e) : (s.next e).Reaping := by
  cases e with
  | pick observed iot => exact reaping.pick able
  | reserve iot => exact reaping.reservePicked able
  | post iot => exact reaping.post ledger able
  | run i mail =>
    obtain ⟨loop, work⟩ := mail
    cases work with
    | start => exact reaping.start ledger able
    | migrate dests => exact reaping.migrate ledger able
    | finishAttach j => exact reaping.finishAttach ledger able
  | finishMigrate i c target => exact reaping.finishMigrate ledger able
  | close i c => exact reaping.close ledger able
  | get i c iot => exact reaping.get ledger able
  | write i c iot => exact reaping.write ledger able
  | answer i r => exact reaping.answer ledger able
  | grow n loads =>
    have grown : { s with size := s.size + n }.Reaping := ⟨reaping.reaped, reaping.held, reaping.attached,
      reaping.ticks, reaping.picked, reaping.looked, reaping.swept.congr rfl fun _ => ⟨rfl, rfl⟩⟩
    exact grown.rebalance (congrArg Tuner.locks able)
  | shrink n loads counts observed => exact reaping.shrink able n loads counts observed
  | reap =>
    refine reaping.goOn (fun _ l now => ?_) trivial ⟨⟨?_, ?_, ?_⟩, ?_⟩
    · have unlocked := able.2
      rw [now] at unlocked
      cases unlocked
    all_goals rintro _ ⟨⟩
  | visit sweep => exact reaping.visit able
  | readPending sweep n => exact reaping.readPending ledger able
  | readHolds sweep => exact reaping.readHolds able
  | unlock sweep =>
    have sorted := (reaping.sorted able.1).1
    exact reaping.goOn (by rintro ⟨⟩) trivial ⟨sorted.live, sorted.stuck, sorted.done⟩
  | join sweep iot rest => exact reaping.join able
  | replan sweep inFlight counts observed loads => exact reaping.replan able

theorem Ledger.and_reaping_step (before : s.Ledger ∧ s.Reaping) (taken : s.step e = some t) : t.Ledger ∧ t.Reaping := by
  obtain ⟨able, rfl⟩ := step_eq_some.mp taken
  exact ⟨before.1.next able, before.2.next before.1 able⟩

end FluxKV.Server.State
