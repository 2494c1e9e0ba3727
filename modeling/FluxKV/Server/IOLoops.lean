import Mathlib.Data.List.Sort
import Mathlib.Tactic.Linarith
import Mathlib.Tactic.Zify
import FluxKV.Machine.Calls
import FluxKV.Machine.Run

/-! # IO loops and the connections that move between them

A loop that gets a connection has been reserved for it: by the accept, by a plan of the tuner, then by the connection
that moves. The tuner retires loops, plans the moves of their connections, and destroys a retiring loop it has found
empty on two ticks in a row. Each access of the tuner to a loop it may destroy, each closure a loop runs and each
callback of a connection is one event. The loads by which loops are chosen are read while they change, so the values
that were seen are part of the event and may be any.
-/

namespace FluxKV.Server

open Machine

/-- Whether a loop is in `ioThreads_`, has been taken out, and is gone. -/
inductive Phase where
  | running
  | erased
  | joined
deriving DecidableEq, Repr

/-- The atomics of a loop. Its connections are those it owns. -/
structure IOThread where
  retiring : Bool := false
  pending : ℤ := 0
  holds : ℤ := 0
  emptyTicks : ℕ := 0
  phase : Phase := .running
deriving DecidableEq, Repr

structure Connection where
  owner : Option ℕ := none
  migrating : Bool := false
  migrateTarget : Option ℕ := none
  closing : Bool := false
deriving DecidableEq, Repr

/-- A closure that was posted to a loop. -/
inductive Work where
  /-- A new connection starts on this loop. -/
  | start
  /-- Connections of this loop move, one to each of these. -/
  | migrate (dests : List ℕ)
  /-- The connection arrives on this loop. -/
  | finishAttach (conn : ℕ)
deriving DecidableEq, Repr

structure Mail where
  loop : ℕ
  work : Work
deriving DecidableEq, Repr

/-- A request whose answer needs a loop: a GET, or a durable write, which holds the loop. -/
inductive Kind where
  | get
  | write
deriving DecidableEq, Repr

structure Request where
  kind : Kind
  conn : ℕ
  evb : ℕ
deriving DecidableEq, Repr

/-- The accepting thread: in `pickIOThread` with the lock held, or about to post. -/
inductive Acceptor where
  | idle
  | picked (iot : ℕ)
  | posting (iot : ℕ)
deriving DecidableEq, Repr

/-- The locals of `Reap`. -/
structure Sweep where
  next : ℕ := 0
  live : List ℕ := []
  stuck : List ℕ := []
  done : List ℕ := []
deriving DecidableEq, Repr

/-- What `Reap` has read of a retiring loop: nothing, `connCount`, or a load of zero. -/
inductive Look where
  | fresh
  | conns (n : ℤ)
  | empty
deriving DecidableEq, Repr

/-- The tuner's thread: `visiting` has the lock, `joining` stops the loops that were erased. -/
inductive Tuner where
  | idle
  | visiting (sweep : Sweep) (look : Look)
  | joining (sweep : Sweep)
deriving DecidableEq, Repr

/-- `loops` has `size` loops; the others are yet to be added. -/
structure State where
  size : ℕ
  loops : ℕ → IOThread
  conns : List Connection
  mail : List Mail
  reqs : List Request
  acceptor : Acceptor
  tuner : Tuner

def State.initial (size : ℕ) : State := ⟨size, fun _ => {}, [], [], [], .idle, .idle⟩

/-! ## Plans -/

/-- The better of the best so far and the next. -/
def lesser (observed : ℕ → ℤ) : Option ℕ → ℕ → Option ℕ
  | none, iot => some iot
  | some best, iot => if observed iot < observed best then some iot else some best

/-- The first of the loops with the least load that was seen. -/
def leastLoaded (observed : ℕ → ℤ) (loops : List ℕ) : Option ℕ := loops.foldl (lesser observed) none

theorem mem_of_leastLoaded {observed : ℕ → ℤ} {loops : List ℕ} {iot : ℕ}
    (found : leastLoaded observed loops = some iot) : iot ∈ loops := by
  have carried : ∀ best, loops.foldl (lesser observed) best = some iot → best = some iot ∨ iot ∈ loops := by
    clear found
    induction loops with
    | nil => exact fun best found => .inl found
    | cons first rest ih =>
      intro best found
      rcases ih _ found with now | later
      · cases best with
        | none => exact .inr (Option.some.inj now ▸ List.mem_cons_self)
        | some b =>
          rw [lesser] at now
          split at now
          · exact .inr (Option.some.inj now ▸ List.mem_cons_self)
          · exact .inl now
      · exact .inr (List.mem_cons_of_mem _ later)
  exact (carried none found).resolve_left (by rintro ⟨⟩)

/-- The destinations of up to `k` moves; `observed i` are the loads the `i`-th choice saw. -/
def planMoves (observed : ℕ → ℕ → ℤ) (k : ℕ) (loops : List ℕ) : List ℕ :=
  (List.range k).filterMap fun i => leastLoaded (observed i) loops

/-- The first positions of the largest and of the smallest load. -/
def extremes (load : List ℤ) : Option (ℕ × ℕ) :=
  let positions := List.range load.length
  (leastLoaded (fun i => -load.getD i 0) positions).bind fun most =>
    (leastLoaded (fun i => load.getD i 0) positions).map fun least => (most, least)

/-- One connection moves from the fullest loop to the emptiest. -/
def moveOne (load : List ℤ) (most least : ℕ) : List ℤ :=
  (load.set most (load.getD most 0 - 1)).set least (load.getD least 0 + 1)

private theorem getElem?_of_mem_range {load : List ℤ} {i : ℕ} (inside : i ∈ List.range load.length) :
    load[i]? = some (load.getD i 0) := by
  rw [List.getD_eq_getElem?_getD, List.getElem?_eq_getElem (List.mem_range.mp inside), Option.getD_some]

theorem sum_squares_moveOne {load : List ℤ} {most least : ℕ} (found : extremes load = some (most, least))
    (apart : 1 < load.getD most 0 - load.getD least 0) :
    ((moveOne load most least).map fun n => (n * n).toNat).sum < (load.map fun n => (n * n).toNat).sum := by
  obtain ⟨i, largest, found⟩ := Option.bind_eq_some_iff.mp found
  obtain ⟨j, smallest, same⟩ := Option.map_eq_some_iff.mp found
  cases same
  have differ : most ≠ least := by
    rintro rfl
    omega
  have first := sum_map_set (fun n : ℤ => (n * n).toNat) (getElem?_of_mem_range (mem_of_leastLoaded largest))
    (load.getD most 0 - 1)
  have there : (load.set most (load.getD most 0 - 1))[least]? = some (load.getD least 0) :=
    (List.getElem?_set_ne differ).trans (getElem?_of_mem_range (mem_of_leastLoaded smallest))
  have second := sum_map_set (fun n : ℤ => (n * n).toNat) there (load.getD least 0 + 1)
  unfold moveOne
  generalize load.getD most 0 = M at *
  generalize load.getD least 0 = m at *
  have lower : (M - 1) * (M - 1) + (m + 1) * (m + 1) < M * M + m * m := by nlinarith
  have square : ∀ n : ℤ, ((n * n).toNat : ℤ) = n * n := fun n => Int.toNat_of_nonneg (mul_self_nonneg n)
  have lower : ((M - 1) * (M - 1)).toNat + ((m + 1) * (m + 1)).toNat < (M * M).toNat + (m * m).toNat := by
    zify
    simpa only [square] using lower
  omega

/-- The moves that level the loads, as positions of donors and receivers. Each lowers the sum of the squares. -/
def levelMoves (load : List ℤ) : List (ℕ × ℕ) :=
  match _found : extremes load with
  | none => []
  | some (most, least) =>
    if _apart : 1 < load.getD most 0 - load.getD least 0 then
      (most, least) :: levelMoves (moveOne load most least)
    else []
termination_by (load.map fun n => (n * n).toNat).sum
decreasing_by exact sum_squares_moveOne _found _apart

/-- The plan of each live loop, by the loads that were seen. -/
def rebalance (live : List ℕ) (loads : ℕ → ℤ) : List (ℕ × List ℕ) :=
  if live.length < 2 then []
  else
    let moves := levelMoves (live.map loads)
    live.zipIdx.map fun (donor, i) => (donor, moves.filterMap fun (di, ri) => if di = i then live[ri]? else none)

/-! ## Connections -/

namespace Connection

/-- `migrateTo`, where it returns true. -/
def migrateTo (c : Connection) (target : ℕ) : Option Connection :=
  if c.closing ∨ c.migrating ∨ c.owner = some target then none
  else some { c with migrating := true, migrateTarget := some target }

/-- `destroy`. -/
def destroy (c : Connection) : Connection :=
  { c with closing := true, migrating := false, migrateTarget := none, owner := none }

/-- The reservation `destroy` gives back. -/
def unreserved (c : Connection) : List ℕ := if c.migrating then c.migrateTarget.toList else []

/-- `tryFinishMigrate` of a connection that has nothing in flight. -/
def detach (c : Connection) : Connection := { c with owner := none, migrateTarget := none }

def finishAttach (c : Connection) (target : ℕ) : Connection := { c with owner := some target, migrating := false }

end Connection

/-- The closure of `postMigrations`: the connections after it, and the destinations that were not used. The source
walks the loop's own vector of connections; here they come in the order in which they were accepted, so which of a loop's
connections are moved may differ, but not how many nor where to. -/
def runPlan (donor : ℕ) : List Connection → List ℕ → List Connection × List ℕ
  | [], dests => ([], dests)
  | c :: rest, [] => (c :: rest, [])
  | c :: rest, dest :: dests =>
    match if c.owner = some donor then c.migrateTo dest else none with
    | some moved =>
      let (conns, unused) := runPlan donor rest dests
      (moved :: conns, unused)
    | none =>
      let (conns, unused) := runPlan donor rest (dest :: dests)
      (c :: conns, unused)

/-! ## The machine -/

/-- One access of one thread, with what it sees. -/
inductive Event where
  /-- `pickIOThread` takes the lock and finds the loop. -/
  | pick (observed : ℕ → ℤ) (iot : ℕ)
  /-- It reserves the loop and gives the lock back. -/
  | reserve (iot : ℕ)
  /-- The accepting thread posts the new connection. -/
  | post (iot : ℕ)
  /-- A loop runs the next closure of its mailbox. -/
  | run (i : ℕ) (mail : Mail)
  /-- `tryFinishMigrate`, where nothing is in flight. -/
  | finishMigrate (i : ℕ) (c : Connection) (target : ℕ)
  /-- `destroy`. -/
  | close (i : ℕ) (c : Connection)
  /-- `handleGet` on a cache miss. -/
  | get (i : ℕ) (c : Connection) (iot : ℕ)
  /-- `handleSet` or `handleDelete` of a durable bucket. -/
  | write (i : ℕ) (c : Connection) (iot : ℕ)
  /-- The answer is out. -/
  | answer (i : ℕ) (r : Request)
  /-- `IOPool::Grow`. -/
  | grow (n : ℕ) (loads : ℕ → ℤ)
  /-- `IOPool::Shrink`; `counts` are the loads by which moves are planned. -/
  | shrink (n : ℕ) (loads : ℕ → ℤ) (counts : ℕ → ℕ) (observed : ℕ → ℕ → ℕ → ℤ)
  /-- `IOPool::Reap` takes the lock. -/
  | reap
  /-- It looks at the next loop, and at its `connCount` if it is retiring. -/
  | visit (sweep : Sweep)
  /-- It reads `pending`. -/
  | readPending (sweep : Sweep) (n : ℤ)
  /-- It reads `holds`. -/
  | readHolds (sweep : Sweep)
  /-- It gives the lock back. -/
  | unlock (sweep : Sweep)
  /-- It stops a loop that was erased. -/
  | join (sweep : Sweep) (iot : ℕ) (rest : List ℕ)
  /-- It plans again, unless it sees connections in flight. -/
  | replan (sweep : Sweep) (inFlight : Bool) (counts : ℕ → ℕ) (observed : ℕ → ℕ → ℕ → ℤ) (loads : ℕ → ℤ)

/-- The reservations a closure takes along. -/
def Mail.reserved : Mail → List ℕ
  | ⟨loop, .start⟩ => [loop]
  | ⟨_, .migrate dests⟩ => dests
  | ⟨loop, .finishAttach _⟩ => [loop]

def Acceptor.reserved : Acceptor → List ℕ
  | posting iot => [iot]
  | idle | picked _ => []

/-- Whether the thread has `ioMu_`. -/
def Acceptor.locks : Acceptor → Bool
  | picked _ => true
  | idle | posting _ => false

def Tuner.locks : Tuner → Bool
  | visiting .. => true
  | idle | joining _ => false

namespace State

variable (s : State)

def connCount (l : ℕ) : ℤ := s.conns.countP fun c => c.owner = some l

/-- The loops that are not retiring. -/
def live : List ℕ :=
  (List.range s.size).filter fun l => (s.loops l).phase = .running ∧ (s.loops l).retiring = false

def setLoop (l : ℕ) (loop : IOThread) : State := { s with loops := Function.update s.loops l loop }

/-- `Reserve()` of each. -/
def reserve (dests : List ℕ) : State :=
  { s with loops := fun l => { s.loops l with pending := (s.loops l).pending + dests.count l } }

/-- `Unreserve()` of each. -/
def unreserve (dests : List ℕ) : State :=
  { s with loops := fun l => { s.loops l with pending := (s.loops l).pending - dests.count l } }

/-- `postMigrations` of each plan, with the reservations that were taken for it. -/
def postMigrations (plans : List (ℕ × List ℕ)) : State :=
  { s.reserve (plans.flatMap Prod.snd) with
    mail := s.mail ++ (plans.filter fun plan => plan.2 ≠ []).map fun plan => ⟨plan.1, .migrate plan.2⟩ }

/-- A closure runs. -/
def runWork (mail : Mail) : State :=
  match mail.work with
  | .start => { s.unreserve [mail.loop] with conns := s.conns ++ [{ owner := some mail.loop }] }
  | .migrate dests =>
    let (conns, unused) := runPlan mail.loop s.conns dests
    { s.unreserve unused with conns := conns }
  | .finishAttach i =>
    { s.unreserve [mail.loop] with conns := s.conns.modify i (Connection.finishAttach · mail.loop) }

/-- The loops with the fewest connections retire. -/
def retire (retiring : List ℕ) : State :=
  { s with loops := fun l => if l ∈ retiring then { s.loops l with retiring := true, emptyTicks := 0 } else s.loops l }

def shrink (n : ℕ) (loads : ℕ → ℤ) (counts : ℕ → ℕ) (observed : ℕ → ℕ → ℕ → ℤ) : State :=
  if s.live.length ≤ 1 then s
  else
    let sorted := s.live.insertionSort fun a b => loads a ≤ loads b
    let n := min n (s.live.length - 1)
    let remaining := sorted.drop n
    (s.retire (sorted.take n)).postMigrations
      ((sorted.take n).map fun l => (l, planMoves (observed l) (counts l) remaining))

/-- `Reap` goes on to the next loop. -/
def advance (sweep : Sweep) : State := { s with tuner := .visiting { sweep with next := sweep.next + 1 } .fresh }

def visit (sweep : Sweep) : State :=
  let iot := s.loops sweep.next
  if iot.phase ≠ .running then s.advance sweep
  else if iot.retiring = false then s.advance { sweep with live := sweep.live ++ [sweep.next] }
  else { s with tuner := .visiting sweep (.conns (s.connCount sweep.next)) }

def readPending (sweep : Sweep) (n : ℤ) : State :=
  let iot := s.loops sweep.next
  if 0 < n + iot.pending then
    (s.setLoop sweep.next { iot with emptyTicks := 0 }).advance { sweep with stuck := sweep.stuck ++ [sweep.next] }
  else { s with tuner := .visiting sweep .empty }

def readHolds (sweep : Sweep) : State :=
  let iot := s.loops sweep.next
  if 0 < iot.holds then (s.setLoop sweep.next { iot with emptyTicks := 0 }).advance sweep
  else if iot.emptyTicks + 1 < 2 then
    (s.setLoop sweep.next { iot with emptyTicks := iot.emptyTicks + 1 }).advance sweep
  else
    (s.setLoop sweep.next { iot with emptyTicks := iot.emptyTicks + 1, phase := .erased }).advance
      { sweep with done := sweep.done ++ [sweep.next] }

def replan (sweep : Sweep) (inFlight : Bool) (counts : ℕ → ℕ) (observed : ℕ → ℕ → ℕ → ℤ) (loads : ℕ → ℤ) : State :=
  if sweep.live = [] ∨ inFlight then { s with tuner := .idle }
  else
    let plans := sweep.stuck.map fun l => (l, planMoves (observed l) (counts l) sweep.live)
    { s.postMigrations (if sweep.stuck = [] then rebalance s.live loads else plans) with tuner := .idle }

/-- Whether an event can happen now. -/
def enabled : Event → Prop
  | .pick observed iot => s.acceptor = .idle ∧ s.tuner.locks = false ∧ leastLoaded observed s.live = some iot
  | .reserve iot => s.acceptor = .picked iot
  | .post iot => s.acceptor = .posting iot
  | .run i mail => s.mail[i]? = some mail ∧ (s.loops mail.loop).phase ≠ .joined ∧
      ∀ earlier ∈ s.mail.take i, earlier.loop ≠ mail.loop
  | .finishMigrate i c target => s.conns[i]? = some c ∧ c.migrating = true ∧ c.closing = false ∧ c.owner ≠ none ∧
      c.migrateTarget = some target ∧ ∀ r ∈ s.reqs, r.conn ≠ i
  | .close i c => s.conns[i]? = some c ∧ c.closing = false ∧ c.owner ≠ none
  | .get i c iot | .write i c iot =>
    s.conns[i]? = some c ∧ c.closing = false ∧ c.migrating = false ∧ c.owner = some iot
  | .answer i r => s.reqs[i]? = some r ∧ (s.loops r.evb).phase ≠ .joined
  | .grow .. | .shrink .. => s.tuner = .idle
  | .reap => s.tuner = .idle ∧ s.acceptor.locks = false
  | .visit sweep => s.tuner = .visiting sweep .fresh ∧ sweep.next < s.size
  | .readPending sweep n => s.tuner = .visiting sweep (.conns n)
  | .readHolds sweep => s.tuner = .visiting sweep .empty
  | .unlock sweep => s.tuner = .visiting sweep .fresh ∧ s.size ≤ sweep.next
  | .join sweep iot rest => s.tuner = .joining sweep ∧ sweep.done = iot :: rest
  | .replan sweep .. => s.tuner = .joining sweep ∧ sweep.done = []

instance : (e : Event) → Decidable (s.enabled e)
  | .pick .. | .run .. | .finishMigrate .. | .close .. | .get .. | .write .. | .answer .. | .reap | .visit _ | .unlock _
  | .join .. | .replan .. => inferInstanceAs (Decidable (_ ∧ _))
  | .reserve _ | .post _ | .grow .. | .shrink .. | .readPending .. | .readHolds _ => inferInstanceAs (Decidable (_ = _))

/-- What an enabled event does. -/
def next : Event → State
  | .pick _ iot => { s with acceptor := .picked iot }
  | .reserve iot => { s.reserve [iot] with acceptor := .posting iot }
  | .post iot =>
    { s with
      acceptor := .idle
      mail := s.mail ++ [⟨iot, .start⟩] }
  | .run i mail => { s with mail := s.mail.eraseIdx i }.runWork mail
  | .finishMigrate i c target =>
    { s with
      conns := s.conns.set i c.detach
      mail := s.mail ++ [⟨target, .finishAttach i⟩] }
  | .close i c => { s.unreserve c.unreserved with conns := s.conns.set i c.destroy }
  | .get i _ iot => { s with reqs := s.reqs ++ [⟨.get, i, iot⟩] }
  | .write i _ iot =>
    { s.setLoop iot { s.loops iot with holds := (s.loops iot).holds + 1 } with
      reqs := s.reqs ++ [⟨.write, i, iot⟩] }
  | .answer i r =>
    match r.kind with
    | .get => { s with reqs := s.reqs.eraseIdx i }
    | .write =>
      { s.setLoop r.evb { s.loops r.evb with holds := (s.loops r.evb).holds - 1 } with
        reqs := s.reqs.eraseIdx i }
  | .grow n loads =>
    let grown := { s with size := s.size + n }
    grown.postMigrations (rebalance grown.live loads)
  | .shrink n loads counts observed => s.shrink n loads counts observed
  | .reap => { s with tuner := .visiting {} .fresh }
  | .visit sweep => s.visit sweep
  | .readPending sweep n => s.readPending sweep n
  | .readHolds sweep => s.readHolds sweep
  | .unlock sweep => { s with tuner := .joining sweep }
  | .join sweep iot rest =>
    { s.setLoop iot { s.loops iot with phase := .joined } with
      tuner := .joining { sweep with done := rest } }
  | .replan sweep inFlight counts observed loads => s.replan sweep inFlight counts observed loads

def step (e : Event) : Option State := if s.enabled e then some (s.next e) else none

variable {s}

theorem step_eq_some {t : State} {e : Event} : s.step e = some t ↔ s.enabled e ∧ t = s.next e :=
  ite_some_eq_some.trans (and_congr_right fun _ => eq_comm)

end State

end FluxKV.Server
