import FluxKV.Server.IOLoops

/-! # Reservations

A reservation is with the accepting thread, in a closure that was posted, or with a connection that moves; the count of
a loop's reservations in all these places is its `pending`.
-/

namespace FluxKV.Server

open Machine

namespace Connection

/-- The reservation of a connection that moves. -/
def reserved (c : Connection) : List ℕ := c.migrateTarget.toList

/-- A connection with a target is moving and still on a loop. -/
def Valid (c : Connection) : Prop := c.migrateTarget ≠ none → c.migrating = true ∧ c.owner ≠ none

variable {c moved : Connection} {target : ℕ}

theorem Valid.target_eq_none (valid : c.Valid) (away : c.migrating = false ∨ c.owner = none) :
    c.migrateTarget = none := by
  by_contra some
  obtain ⟨moving, attached⟩ := valid some
  rcases away with still | detached
  · exact absurd moving (by rw [still]; decide)
  · exact attached detached

theorem migrateTo_eq_some (moves : c.migrateTo target = some moved) :
    c.closing = false ∧ c.migrating = false ∧ moved = { c with migrating := true, migrateTarget := some target } := by
  unfold migrateTo at moves
  split at moves
  · cases moves
  · next can =>
    simp only [not_or, Bool.not_eq_true] at can
    exact ⟨can.1, can.2.1, (Option.some.inj moves).symm⟩

end Connection

/-! ## The closure of a plan -/

section Plan

variable (donor : ℕ)

/-- What a plan does to one connection after the other. -/
theorem runPlan_induction {P : List Connection → List ℕ → List Connection × List ℕ → Prop}
    (nil : ∀ dests, P [] dests ([], dests)) (full : ∀ conns, P conns [] (conns, []))
    (moves : ∀ c moved rest dest dests result, c.owner = some donor → c.migrateTo dest = some moved →
      P rest dests result → P (c :: rest) (dest :: dests) (moved :: result.1, result.2))
    (stays : ∀ c rest dests result, P rest dests result → P (c :: rest) dests (c :: result.1, result.2))
    (conns : List Connection) (dests : List ℕ) : P conns dests (runPlan donor conns dests) := by
  induction conns generalizing dests with
  | nil => exact nil dests
  | cons c rest ih =>
    cases dests with
    | nil => exact full (c :: rest)
    | cons dest dests =>
      unfold runPlan
      split
      · next moved found =>
        split at found
        · next here => exact moves c moved rest dest dests _ here found (ih dests)
        · cases found
      · exact stays c rest (dest :: dests) _ (ih (dest :: dests))

/-- The connections stay on their loops. -/
theorem runPlan_places (conns : List Connection) (dests : List ℕ) :
    (runPlan donor conns dests).1.map (fun c => (c.owner, c.closing)) = conns.map fun c => (c.owner, c.closing) := by
  refine runPlan_induction donor
    (P := fun conns _ result => result.1.map (fun c => (c.owner, c.closing)) = conns.map fun c => (c.owner, c.closing))
    (fun _ => rfl) (fun _ => rfl) ?_ ?_ conns dests
  · intro c moved rest dest dests result _ moves same
    obtain ⟨_, _, rfl⟩ := Connection.migrateTo_eq_some moves
    rw [List.map_cons, List.map_cons, same]
  · intro c rest dests result same
    rw [List.map_cons, List.map_cons, same]

theorem runPlan_getElem? {conns : List Connection} {i : ℕ} {c : Connection} (here : conns[i]? = some c)
    (dests : List ℕ) :
    ∃ c', (runPlan donor conns dests).1[i]? = some c' ∧ c'.owner = c.owner ∧ c'.closing = c.closing := by
  have same := congrArg (·[i]?) (runPlan_places donor conns dests)
  simp only [List.getElem?_map, here, Option.map_some] at same
  obtain ⟨c', there, same⟩ := Option.map_eq_some_iff.mp same
  simp only [Prod.mk.injEq] at same
  exact ⟨c', there, same⟩

theorem runPlan_valid {conns : List Connection} (valid : ∀ c ∈ conns, c.Valid) (dests : List ℕ) :
    ∀ c ∈ (runPlan donor conns dests).1, c.Valid := by
  revert valid
  refine runPlan_induction donor
    (P := fun conns _ result => (∀ c ∈ conns, c.Valid) → ∀ c ∈ result.1, c.Valid)
    (fun _ valid => valid) (fun _ valid => valid) ?_ ?_ conns dests
  · intro c moved rest dest dests result here moves others valid
    obtain ⟨_, _, rfl⟩ := Connection.migrateTo_eq_some moves
    obtain ⟨_, valid⟩ := List.forall_mem_cons.mp valid
    refine List.forall_mem_cons.mpr ⟨fun _ => ⟨rfl, ?_⟩, others valid⟩
    exact ne_of_eq_of_ne here (Option.some_ne_none donor)
  · intro c rest dests result others valid
    obtain ⟨first, valid⟩ := List.forall_mem_cons.mp valid
    exact List.forall_mem_cons.mpr ⟨first, others valid⟩

/-- A destination is with a connection after the plan or not used. -/
theorem runPlan_reserved {conns : List Connection} (valid : ∀ c ∈ conns, c.Valid) (dests : List ℕ) (l : ℕ) :
    ((runPlan donor conns dests).1.flatMap Connection.reserved).count l + (runPlan donor conns dests).2.count l =
      (conns.flatMap Connection.reserved).count l + dests.count l := by
  revert valid
  refine runPlan_induction donor
    (P := fun conns dests result => (∀ c ∈ conns, c.Valid) →
      (result.1.flatMap Connection.reserved).count l + result.2.count l =
        (conns.flatMap Connection.reserved).count l + dests.count l)
    (fun _ _ => rfl) (fun _ _ => rfl) ?_ ?_ conns dests
  · intro c moved rest dest dests result _ moves others valid
    obtain ⟨_, still, rfl⟩ := Connection.migrateTo_eq_some moves
    obtain ⟨first, valid⟩ := List.forall_mem_cons.mp valid
    have before : c.reserved = [] := by rw [Connection.reserved, first.target_eq_none (.inl still), Option.toList_none]
    have all := others valid
    rw [List.flatMap_cons, List.flatMap_cons, before, List.nil_append, List.count_append, List.count_cons]
    show List.count l [dest] + (result.1.flatMap Connection.reserved).count l + result.2.count l = _
    rw [List.count_singleton]
    omega
  · intro c rest dests result others valid
    obtain ⟨_, valid⟩ := List.forall_mem_cons.mp valid
    have all := others valid
    rw [List.flatMap_cons, List.flatMap_cons, List.count_append, List.count_append]
    dsimp only
    omega

end Plan

/-- The connection that arrives with a closure. -/
def Mail.conn? : Mail → Option ℕ
  | ⟨_, .finishAttach i⟩ => some i
  | ⟨_, .start⟩ | ⟨_, .migrate _⟩ => none

namespace State

variable {s t : State} {e : Event} {i l : ℕ}

/-- The loops for which a reservation is outstanding, each as often as it is reserved. -/
def reserved (s : State) : List ℕ :=
  s.acceptor.reserved ++ s.mail.flatMap Mail.reserved ++ s.conns.flatMap Connection.reserved

/-- What a loop counts as pending are the reservations that are outstanding. -/
def Counted (s : State) : Prop := ∀ l, (s.loops l).pending = s.reserved.count l

theorem count_reserved (s : State) (l : ℕ) : s.reserved.count l = s.acceptor.reserved.count l +
    (s.mail.flatMap Mail.reserved).count l + (s.conns.flatMap Connection.reserved).count l := by
  rw [reserved, List.count_append, List.count_append]

/-- Every connection that arrives with one of the closures is on no loop and open. -/
def Arriving (conns : List Connection) (mail : List Mail) : Prop :=
  ∀ m ∈ mail, ∀ i, m.conn? = some i → ∃ c, conns[i]? = some c ∧ c.owner = none ∧ c.closing = false

/-- The places of reservations. A connection that arrives with a closure is nowhere else. -/
structure Ledger (s : State) : Prop where
  counted : s.Counted
  valid : ∀ c ∈ s.conns, c.Valid
  arriving : Arriving s.conns s.mail
  once : (s.mail.filterMap Mail.conn?).Nodup

theorem Ledger.initial (size : ℕ) : (initial size).Ledger where
  counted _ := rfl
  valid := by rintro _ ⟨⟩
  arriving := by rintro _ ⟨⟩
  once := .nil

/-- Nothing is reserved, given back or moved. -/
theorem Ledger.congr (ledger : s.Ledger) (pending : ∀ l, (t.loops l).pending = (s.loops l).pending)
    (acceptor : t.acceptor.reserved = s.acceptor.reserved) (mail : t.mail = s.mail) (conns : t.conns = s.conns) :
    t.Ledger where
  counted l := by
    rw [pending, ledger.counted l, count_reserved, count_reserved, acceptor, mail, conns]
  valid := conns ▸ ledger.valid
  arriving := mail ▸ conns ▸ ledger.arriving
  once := mail ▸ ledger.once

theorem forall_setLoop {P : ℕ → IOThread → Prop} {loop : IOThread} (here : P i loop)
    (there : ∀ l ≠ i, P l (s.loops l)) (l : ℕ) : P l ((s.setLoop i loop).loops l) := by
  show P l (Function.update s.loops i loop l)
  rcases eq_or_ne l i with rfl | other
  · rwa [Function.update_self]
  · rw [Function.update_of_ne other]
    exact there l other

/-- A field that `setLoop` leaves as it is. -/
theorem apply_setLoop {α : Type*} (f : IOThread → α) {loop : IOThread} (same : f loop = f (s.loops i)) (l : ℕ) :
    f ((s.setLoop i loop).loops l) = f (s.loops l) :=
  forall_setLoop (P := fun l loop => f loop = f (s.loops l)) same (fun _ _ => rfl) l

/-- Plans are posted with a reservation for each of their moves. -/
theorem Ledger.postMigrations (ledger : s.Ledger) (plans : List (ℕ × List ℕ)) : (s.postMigrations plans).Ledger := by
  have posted : ∀ l, (((plans.filter fun plan => plan.2 ≠ []).map fun plan : ℕ × List ℕ =>
      (⟨plan.1, .migrate plan.2⟩ : Mail)).flatMap Mail.reserved).count l = (plans.flatMap Prod.snd).count l := by
    intro l
    induction plans with
    | nil => rfl
    | cons plan rest ih =>
      rw [List.filter_cons]
      split
      · rw [List.map_cons, List.flatMap_cons, List.flatMap_cons, List.count_append, List.count_append, ih]
        rfl
      · next none =>
        have none : plan.2 = [] := by simpa using none
        rw [ih, List.flatMap_cons, none, List.nil_append]
  have conn : ∀ m ∈ (plans.filter fun plan => plan.2 ≠ []).map fun plan : ℕ × List ℕ =>
      (⟨plan.1, .migrate plan.2⟩ : Mail), m.conn? = none := by
    intro m member
    obtain ⟨plan, _, rfl⟩ := List.mem_map.mp member
    rfl
  refine ⟨fun l => ?_, ledger.valid, ?_, ?_⟩
  · have before := ledger.counted l
    rw [count_reserved] at before ⊢
    show (s.loops l).pending + _ = _
    rw [before, State.postMigrations, List.flatMap_append, List.count_append, posted]
    show _ = ((s.acceptor.reserved.count l + _ + (s.conns.flatMap Connection.reserved).count l : ℕ) : ℤ)
    omega
  · refine List.forall_mem_append.mpr ⟨ledger.arriving, fun m member i found => ?_⟩
    rw [conn m member] at found
    cases found
  · show ((s.mail ++ _).filterMap Mail.conn?).Nodup
    rw [List.filterMap_append, List.filterMap_eq_nil_iff.mpr conn, List.append_nil]
    exact ledger.once

private theorem Ledger.reserve (ledger : s.Ledger) {iot : ℕ} (here : s.acceptor = .picked iot) :
    (s.next (.reserve iot)).Ledger := by
  refine ⟨fun l => ?_, ledger.valid, ledger.arriving, ledger.once⟩
  have before := ledger.counted l
  have none : s.acceptor.reserved = [] := by rw [here, Acceptor.reserved]
  rw [count_reserved, none, List.count_nil] at before
  rw [count_reserved]
  show (s.loops l).pending + ([iot].count l : ℕ) = (([iot].count l + (s.mail.flatMap Mail.reserved).count l +
    (s.conns.flatMap Connection.reserved).count l : ℕ) : ℤ)
  omega

private theorem Ledger.post (ledger : s.Ledger) {iot : ℕ} (here : s.acceptor = .posting iot) :
    (s.next (.post iot)).Ledger := by
  refine ⟨fun l => ?_, ledger.valid, ?_, ?_⟩
  · have before := ledger.counted l
    have one : s.acceptor.reserved = [iot] := by rw [here, Acceptor.reserved]
    have posted : ((s.mail ++ [Mail.mk iot .start]).flatMap Mail.reserved).count l =
        (s.mail.flatMap Mail.reserved).count l + [iot].count l := by
      rw [List.flatMap_append, List.count_append]
      rfl
    rw [count_reserved, one] at before
    rw [count_reserved]
    show (s.loops l).pending = ((0 + ((s.mail ++ [Mail.mk iot .start]).flatMap Mail.reserved).count l +
      (s.conns.flatMap Connection.reserved).count l : ℕ) : ℤ)
    omega
  · refine List.forall_mem_append.mpr ⟨ledger.arriving, fun m member i found => ?_⟩
    rw [List.mem_singleton.mp member] at found
    cases found
  · show ((s.mail ++ [_]).filterMap Mail.conn?).Nodup
    rw [List.filterMap_append]
    exact (List.append_nil _).symm ▸ ledger.once

/-- A closure is taken out of the mailbox. -/
private theorem Ledger.erase (ledger : s.Ledger) {mail : Mail} (here : s.mail[i]? = some mail) :
    (∀ l, (s.loops l).pending = ((mail.reserved.count l + (s.acceptor.reserved.count l +
      ((s.mail.eraseIdx i).flatMap Mail.reserved).count l + (s.conns.flatMap Connection.reserved).count l) : ℕ) : ℤ)) ∧
    Arriving s.conns (s.mail.eraseIdx i) ∧
    ((s.mail.eraseIdx i).filterMap Mail.conn?).Nodup ∧
    ∀ j, mail.conn? = some j → j ∉ (s.mail.eraseIdx i).filterMap Mail.conn? := by
  obtain ⟨inside, rfl⟩ := List.getElem?_eq_some_iff.mp here
  refine ⟨fun l => ?_, fun m member => ledger.arriving m (List.mem_of_mem_eraseIdx member),
    ledger.once.sublist ((List.eraseIdx_sublist ..).filterMap _), fun j arrives => ?_⟩
  · have before := ledger.counted l
    rw [count_reserved, count_flatMap_eraseIdx Mail.reserved here] at before
    omega
  · have once := ((List.getElem_cons_eraseIdx_perm inside).filterMap Mail.conn?).nodup_iff.mpr ledger.once
    rw [List.filterMap_cons, arrives] at once
    exact (List.nodup_cons.mp once).1

private theorem Ledger.start (ledger : s.Ledger) {iot : ℕ} (here : s.mail[i]? = some ⟨iot, .start⟩) :
    (s.next (.run i ⟨iot, .start⟩)).Ledger := by
  obtain ⟨counted, arriving, once, _⟩ := ledger.erase here
  refine ⟨fun l => ?_, List.forall_mem_append.mpr ⟨ledger.valid, ?_⟩, fun m member i found => ?_, once⟩
  · have before := counted l
    have added : ((s.conns ++ [({ owner := some iot } : Connection)]).flatMap Connection.reserved).count l =
        (s.conns.flatMap Connection.reserved).count l := by
      rw [List.flatMap_append, List.count_append]
      rfl
    rw [count_reserved]
    show (s.loops l).pending - ([iot].count l : ℕ) = ((s.acceptor.reserved.count l +
      ((s.mail.eraseIdx i).flatMap Mail.reserved).count l +
        ((s.conns ++ [({ owner := some iot } : Connection)]).flatMap Connection.reserved).count l : ℕ) : ℤ)
    rw [Mail.reserved] at before
    omega
  · intro c member
    rw [List.mem_singleton.mp member]
    exact fun some => (some rfl).elim
  · obtain ⟨c, there, free⟩ := arriving m member i found
    exact ⟨c, (List.getElem?_append_left (List.getElem?_eq_some_iff.mp there).1).trans there, free⟩

private theorem Ledger.migrate (ledger : s.Ledger) {donor : ℕ} {dests : List ℕ}
    (here : s.mail[i]? = some ⟨donor, .migrate dests⟩) : (s.next (.run i ⟨donor, .migrate dests⟩)).Ledger := by
  obtain ⟨counted, arriving, once, _⟩ := ledger.erase here
  refine ⟨fun l => ?_, runPlan_valid donor ledger.valid dests, fun m member i found => ?_, once⟩
  · have before := counted l
    have planned := runPlan_reserved donor ledger.valid dests l
    rw [count_reserved]
    show (s.loops l).pending - ((runPlan donor s.conns dests).2.count l : ℕ) = ((s.acceptor.reserved.count l +
      ((s.mail.eraseIdx i).flatMap Mail.reserved).count l +
        ((runPlan donor s.conns dests).1.flatMap Connection.reserved).count l : ℕ) : ℤ)
    rw [Mail.reserved] at before
    omega
  · obtain ⟨c, there, detached, opened⟩ := arriving m member i found
    obtain ⟨c', there', owner, closing⟩ := runPlan_getElem? donor there dests
    exact ⟨c', there', owner.trans detached, closing.trans opened⟩

private theorem Arriving.set {conns : List Connection} {mail : List Mail} (arriving : Arriving conns mail)
    (apart : i ∉ mail.filterMap Mail.conn?) (new : Connection) : Arriving (conns.set i new) mail := by
  intro m member j found
  obtain ⟨c, there, free⟩ := arriving m member j found
  have other : i ≠ j := by
    rintro rfl
    exact apart (List.mem_filterMap.mpr ⟨m, member, found⟩)
  exact ⟨c, (List.getElem?_set_ne other).trans there, free⟩

/-- A connection on a loop does not arrive. -/
private theorem Arriving.apart {conns : List Connection} {mail : List Mail} (arriving : Arriving conns mail)
    {c : Connection} (here : conns[i]? = some c) (attached : c.owner ≠ none) : i ∉ mail.filterMap Mail.conn? := by
  intro member
  obtain ⟨m, member, found⟩ := List.mem_filterMap.mp member
  obtain ⟨c', there, detached, _⟩ := arriving m member i found
  cases here.symm.trans there
  exact attached detached

/-- The connection that arrives is on the loop. -/
theorem conns_finishAttach (i iot : ℕ) {j : ℕ} {c : Connection} (there : s.conns[j]? = some c) :
    (s.next (.run i ⟨iot, .finishAttach j⟩)).conns = s.conns.set j (c.finishAttach iot) := by
  show s.conns.modify j _ = _
  rw [List.modify_eq_set_getElem?, there]
  rfl

private theorem Ledger.finishAttach (ledger : s.Ledger) {iot j : ℕ} (here : s.mail[i]? = some ⟨iot, .finishAttach j⟩) :
    (s.next (.run i ⟨iot, .finishAttach j⟩)).Ledger := by
  obtain ⟨counted, arriving, once, apart⟩ := ledger.erase here
  obtain ⟨c, there, detached, _⟩ := ledger.arriving _ (List.mem_of_getElem? here) j rfl
  have target := (ledger.valid c (List.mem_of_getElem? there)).target_eq_none (.inr detached)
  have conns := conns_finishAttach i iot there
  refine ⟨fun l => ?_, ?_, ?_, once⟩
  · have before := counted l
    have same := count_flatMap_set Connection.reserved there (c.finishAttach iot) l
    have none : c.reserved = [] := by rw [Connection.reserved, target, Option.toList_none]
    have none' : (c.finishAttach iot).reserved = [] := none
    rw [none, none'] at same
    rw [count_reserved, conns]
    show (s.loops l).pending - ([iot].count l : ℕ) = ((s.acceptor.reserved.count l +
      ((s.mail.eraseIdx i).flatMap Mail.reserved).count l + _ : ℕ) : ℤ)
    rw [Mail.reserved] at before
    omega
  · rw [conns]
    exact forall_mem_set (fun some => (some target).elim) ledger.valid
  · rw [conns]
    exact Arriving.set arriving (apart j rfl) _

private theorem Ledger.finishMigrate (ledger : s.Ledger) {c : Connection} {target : ℕ} (here : s.conns[i]? = some c)
    (opened : c.closing = false) (attached : c.owner ≠ none) (moves : c.migrateTarget = some target) :
    (s.next (.finishMigrate i c target)).Ledger := by
  have apart := Arriving.apart ledger.arriving here attached
  refine ⟨fun l => ?_, ?_, List.forall_mem_append.mpr ⟨Arriving.set ledger.arriving apart _, ?_⟩, ?_⟩
  · have before := ledger.counted l
    have same := count_flatMap_set Connection.reserved here c.detach l
    have posted : ((s.mail ++ [Mail.mk target (.finishAttach i)]).flatMap Mail.reserved).count l =
        (s.mail.flatMap Mail.reserved).count l + [target].count l := by
      rw [List.flatMap_append, List.count_append]
      rfl
    have one : c.reserved = [target] := by rw [Connection.reserved, moves, Option.toList_some]
    have none : c.detach.reserved = [] := rfl
    rw [one, none, List.count_nil] at same
    rw [count_reserved] at before ⊢
    show (s.loops l).pending = ((s.acceptor.reserved.count l +
      ((s.mail ++ [Mail.mk target (.finishAttach i)]).flatMap Mail.reserved).count l +
        ((s.conns.set i c.detach).flatMap Connection.reserved).count l : ℕ) : ℤ)
    omega
  · exact forall_mem_set (fun some => (some rfl).elim) ledger.valid
  · intro m member j found
    rw [List.mem_singleton.mp member] at found
    cases found
    exact ⟨c.detach, List.getElem?_set_self (List.getElem?_eq_some_iff.mp here).1, rfl, opened⟩
  · show ((s.mail ++ [_]).filterMap Mail.conn?).Nodup
    rw [List.filterMap_append]
    exact List.nodup_append.mpr ⟨ledger.once, List.nodup_singleton i, fun a first b second => by
      rw [List.mem_singleton.mp second]
      rintro rfl
      exact apart first⟩

private theorem Ledger.close (ledger : s.Ledger) {c : Connection} (here : s.conns[i]? = some c)
    (attached : c.owner ≠ none) : (s.next (.close i c)).Ledger := by
  have valid := ledger.valid c (List.mem_of_getElem? here)
  have unreserved : c.unreserved = c.reserved := by
    unfold Connection.unreserved
    split
    · rfl
    · next still =>
      rw [Connection.reserved, valid.target_eq_none (.inl (Bool.eq_false_iff.mpr still)), Option.toList_none]
  refine ⟨fun l => ?_, ?_, Arriving.set ledger.arriving (Arriving.apart ledger.arriving here attached) _, ledger.once⟩
  · have before := ledger.counted l
    have same := count_flatMap_set Connection.reserved here c.destroy l
    have none : c.destroy.reserved = [] := rfl
    rw [none, List.count_nil] at same
    rw [count_reserved] at before ⊢
    show (s.loops l).pending - (c.unreserved.count l : ℕ) = ((s.acceptor.reserved.count l +
      (s.mail.flatMap Mail.reserved).count l + ((s.conns.set i c.destroy).flatMap Connection.reserved).count l : ℕ) : ℤ)
    rw [unreserved]
    omega
  · exact forall_mem_set (fun some => (some rfl).elim) ledger.valid

private theorem Ledger.retire (ledger : s.Ledger) (retiring : List ℕ) : (s.retire retiring).Ledger := by
  refine ledger.congr (fun l => ?_) rfl rfl rfl
  show IOThread.pending (if l ∈ retiring then _ else s.loops l) = _
  split <;> rfl

private theorem Ledger.shrink (ledger : s.Ledger) (n : ℕ) (loads : ℕ → ℤ) (counts : ℕ → ℕ)
    (observed : ℕ → ℕ → ℕ → ℤ) : (s.shrink n loads counts observed).Ledger := by
  unfold State.shrink
  dsimp only
  split
  · exact ledger
  · exact (ledger.retire _).postMigrations _

/-- What `Reap` leaves as it is when it looks at a loop. -/
structure Frame (s t : State) : Prop where
  conns : t.conns = s.conns
  mail : t.mail = s.mail
  reqs : t.reqs = s.reqs
  acceptor : t.acceptor = s.acceptor
  pending : ∀ l, (t.loops l).pending = (s.loops l).pending

theorem frame_visit (s : State) (sweep : Sweep) : s.Frame (s.visit sweep) := by
  unfold visit
  dsimp only
  split_ifs <;> exact ⟨rfl, rfl, rfl, rfl, fun _ => rfl⟩

theorem frame_readPending (s : State) (sweep : Sweep) (n : ℤ) : s.Frame (s.readPending sweep n) := by
  unfold readPending
  dsimp only
  split
  · exact ⟨rfl, rfl, rfl, rfl, apply_setLoop IOThread.pending rfl⟩
  · exact ⟨rfl, rfl, rfl, rfl, fun _ => rfl⟩

theorem frame_readHolds (s : State) (sweep : Sweep) : s.Frame (s.readHolds sweep) := by
  unfold readHolds
  dsimp only
  split_ifs <;> exact ⟨rfl, rfl, rfl, rfl, apply_setLoop IOThread.pending rfl⟩

private theorem Ledger.frame (ledger : s.Ledger) (frame : s.Frame t) : t.Ledger :=
  ledger.congr frame.pending (congrArg _ frame.acceptor) frame.mail frame.conns

theorem Ledger.next (ledger : s.Ledger) (able : s.enabled e) : (s.next e).Ledger := by
  cases e with
  | pick observed iot => exact ledger.congr (fun _ => rfl) (by rw [able.1]; rfl) rfl rfl
  | reserve iot => exact ledger.reserve able
  | post iot => exact ledger.post able
  | run i mail =>
    obtain ⟨loop, work⟩ := mail
    cases work with
    | start => exact ledger.start able.1
    | migrate dests => exact ledger.migrate able.1
    | finishAttach j => exact ledger.finishAttach able.1
  | finishMigrate i c target =>
    obtain ⟨here, _, opened, attached, moves, _⟩ := able
    exact ledger.finishMigrate here opened attached moves
  | close i c => exact ledger.close able.1 able.2.2
  | get i c iot | reap | unlock sweep => exact ledger.congr (fun _ => rfl) rfl rfl rfl
  | write i c iot | join sweep iot rest => exact ledger.congr (apply_setLoop IOThread.pending rfl) rfl rfl rfl
  | answer i r =>
    obtain ⟨kind, conn, evb⟩ := r
    cases kind with
    | get => exact ledger.congr (fun _ => rfl) rfl rfl rfl
    | write => exact ledger.congr (apply_setLoop IOThread.pending rfl) rfl rfl rfl
  | grow n loads => exact (ledger.congr (t := { s with size := s.size + n }) (fun _ => rfl) rfl rfl rfl).postMigrations _
  | shrink n loads counts observed => exact ledger.shrink n loads counts observed
  | visit sweep => exact ledger.frame (s.frame_visit sweep)
  | readPending sweep n => exact ledger.frame (s.frame_readPending sweep n)
  | readHolds sweep => exact ledger.frame (s.frame_readHolds sweep)
  | replan sweep inFlight counts observed loads =>
    show (s.replan sweep inFlight counts observed loads).Ledger
    unfold State.replan
    dsimp only
    split
    · exact ledger.congr (fun _ => rfl) rfl rfl rfl
    · exact (ledger.postMigrations _).congr (fun _ => rfl) rfl rfl rfl

end State

end FluxKV.Server
