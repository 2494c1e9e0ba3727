import FluxKV.Client.Batches

/-! # Keeping a window of requests outstanding

A connection has as many slots as the pipeline is deep. It sends a request in each slot that is free, or in as many as
are due, and waits for responses, which free their slots again. Where nothing is due it polls, so that it only blocks
where no slot is free. In a load whose keys are all sent the free slots are dropped, though, and the connection blocks
also when nothing is outstanding any more.
-/

namespace FluxKV.Client.Window

open Machine Protocol

/-- Where `runConnectionWindow` is. It does not get past filling `freed` with 2^32 slots or more, as these are counted
in 32 bits. -/
inductive Phase where
  | filling
  | top
  | polling
  | receiving (polled : Bool)
  | finished
deriving DecidableEq, Repr

/-- The state of the function. The free slots have their back first, and what is in flight is sent and not answered. -/
structure Thread where
  phase : Phase
  freed : List UInt32
  setCursor : UInt64
  nextSend : ℤ
  rx : Bytes := []
  result : Result := {}
  inFlight : List Ask := []

/-- A test of the stop flag, a round up to its wait, the end of a poll, and a return of `recv`, which has failed or
found the connection closed if it has no bytes. -/
inductive Event where
  | stop
  | round (tick : ℤ) (pick : ℕ → UInt64) (written : Bool) (now : ℤ)
  | poll (ready : Bool)
  | receive (chunk : Bytes)

section Definitions

variable (w : Workload) (interval : Option ℤ)

/-- `nextSend` is the time of the call. -/
def start (threadIndex : ℕ) (nextSend : ℤ) : Thread where
  phase := if 2 ^ 32 ≤ w.pipeline.toNat then .filling else .top
  freed := ((List.range w.pipeline.toNat).map UInt32.ofNat).reverse
  setCursor := .ofNat threadIndex
  nextSend := nextSend

/-- How many of the free slots are due on a schedule. -/
def dueBy (interval tick : ℤ) : ℕ → ℤ → ℕ
  | 0, _ => 0
  | n + 1, t => if t ≤ tick then dueBy interval tick n (t + interval) + 1 else 0

/-- How many of the free slots are due. There is no schedule without a rate. -/
def due (tick : ℤ) (t : Thread) : ℕ :=
  match interval with
  | none => t.freed.length
  | some interval => dueBy interval tick t.freed.length t.nextSend

/-- All keys of the load are sent. -/
def Spent (t : Thread) : Prop := w.strideLoad ∧ w.keys ≤ t.setCursor

instance (t : Thread) : Decidable (Spent w t) := inferInstanceAs (Decidable (_ ∧ _))

/-- Requests in the first free slots, as many as are due, from the `i`-th on. -/
def send (pick : ℕ → UInt64) : ℕ → ℕ → Thread → Thread × List Ask
  | _, 0, t => (t, [])
  | i, n + 1, t =>
    match t.freed with
    | [] => (t, [])
    | slot :: freed =>
      if Spent w t then (t, [])
      else
        let key := if w.strideLoad then t.setCursor else pick i
        let (next, asks) := send pick (i + 1) n { t with
          freed := freed
          setCursor := if w.strideLoad then t.setCursor + w.conns else t.setCursor
          nextSend := t.nextSend + interval.getD 0 }
        (next, ⟨w.op, key, slot⟩ :: asks)

/-- The sending part of a round, with what it sends. -/
def sendDue (tick : ℤ) (pick : ℕ → UInt64) (t : Thread) : Thread × List Ask :=
  if due interval tick t = 0 then (t, [])
  else
    let (t, asks) := send w interval pick 0 (due interval tick t) t
    let t := { t with inFlight := t.inFlight ++ asks }
    (if Spent w t then { t with freed := [] } else t, asks)

def round (tick : ℤ) (pick : ℕ → UInt64) (written : Bool) (now : ℤ) (t : Thread) : Thread :=
  let (t, asks) := sendDue w interval tick pick t
  if asks ≠ [] ∧ written = false then
    { t with result := { t.result with errors := t.result.errors + 1 }, phase := .finished }
  else if interval.isSome ∧ t.freed ≠ [] then
    if t.nextSend - now ≤ 0 then { t with phase := .top } else { t with phase := .polling }
  else { t with phase := .receiving false }

/-- The buffer starts with a whole response. -/
def Whole (rx : Bytes) : Prop := kHeaderSize ≤ rx.length ∧ kHeaderSize + (getU32 rx 8).toNat ≤ rx.length

/-- The responses that are whole, what is left of the buffer and if that starts with something else than a response.
Each response takes some bytes, so that the length of the buffer is enough for the first argument. -/
def responses : ℕ → Bytes → List Reply × Bytes × Bool
  | 0, rx => ([], rx, false)
  | fuel + 1, rx =>
    if rx.length < kHeaderSize then ([], rx, false)
    else if rx.length < kHeaderSize + (getU32 rx 8).toNat then ([], rx, false)
    else if isResponse (rx.getD 0 0) = false then ([], rx, true)
    else
      let (replies, rest, desynced) := responses fuel (rx.drop (kHeaderSize + (getU32 rx 8).toNat))
      (⟨getU32 rx 12, getU16 rx 6⟩ :: replies, rest, desynced)

/-- A response answers the request in its slot. -/
def answer (t : Thread) (reply : Reply) : Thread :=
  { t with
    freed := if reply.opaqueId.toNat < w.pipeline.toNat then reply.opaqueId :: t.freed else t.freed
    result := t.result.count reply.status
    inFlight := t.inFlight.eraseP fun ask => ask.opaqueId = reply.opaqueId }

def receive (chunk : Bytes) (t : Thread) : Thread :=
  let failed (t : Thread) : Thread :=
    { t with result := { t.result with errors := t.result.errors + 1 }, phase := .finished }
  if chunk = [] then failed t
  else
    let rx := t.rx ++ chunk
    let (replies, rest, desynced) := responses rx.length rx
    let t := replies.foldl (answer w) { t with rx := rest, phase := .top }
    if desynced then failed t else t

def step (t : Thread) (e : Event) : Option Thread :=
  match t.phase, e with
  | .top, .stop => some { t with phase := .finished }
  | .top, .round tick pick written now => some (round w interval tick pick written now t)
  | .polling, .poll ready => some { t with phase := if ready then .receiving true else .top }
  | .receiving _, .receive chunk => some (receive w chunk t)
  | _, _ => none

/-- A connection that blocks in `recv` has something to wait for: a request of which the response has not come. -/
def Awaits (t : Thread) : Prop := t.phase = .receiving false → t.inFlight ≠ [] ∧ ¬ Whole t.rx

/-- No round finds slots due in a load of which all keys are sent and answered. -/
def Unfinished (t : Thread) : Event → Prop
  | .round tick _ _ _ => ¬ (Spent w t ∧ t.inFlight = [] ∧ 0 < due interval tick t)
  | _ => True

instance (t : Thread) (e : Event) : Decidable (Unfinished w interval t e) :=
  match e with
  | .stop => .isTrue trivial
  | .round .. => inferInstanceAs (Decidable (¬ _))
  | .poll _ => .isTrue trivial
  | .receive _ => .isTrue trivial

end Definitions

/-- What is left of the buffer is not a whole response. -/
theorem not_whole_of_responses {fuel : ℕ} {rx : Bytes} (enough : rx.length ≤ fuel)
    (synced : (responses fuel rx).2.2 = false) : ¬ Whole (responses fuel rx).2.1 := by
  induction fuel generalizing rx with
  | zero => exact fun whole => absurd (whole.1.trans enough) (by decide)
  | succ fuel ih =>
    rw [responses] at synced ⊢
    split_ifs at synced ⊢ with short cut foreign
    · exact fun whole => Nat.not_lt.mpr whole.1 short
    · exact fun whole => Nat.not_lt.mpr whole.2 cut
    · refine ih ?_ synced
      have size : 0 < kHeaderSize := by decide
      rw [List.length_drop]
      omega

section Steps

variable {w : Workload} {interval : Option ℤ} {t next : Thread} {e : Event}

/-- Every slot is one of the pipeline's. -/
structure Slots (w : Workload) (t : Thread) : Prop where
  freed : ∀ slot ∈ t.freed, slot.toNat < w.pipeline.toNat
  inFlight : ∀ ask ∈ t.inFlight, ask.opaqueId.toNat < w.pipeline.toNat

theorem send_slots (w : Workload) (interval : Option ℤ) (pick : ℕ → UInt64) (i n : ℕ) (t : Thread) :
    t.freed = (send w interval pick i n t).2.map Ask.opaqueId ++ (send w interval pick i n t).1.freed ∧
      (send w interval pick i n t).1.inFlight = t.inFlight ∧
      (send w interval pick i n t).1.rx = t.rx := by
  induction n generalizing i t with
  | zero => exact ⟨rfl, rfl, rfl⟩
  | succ n ih =>
    rw [send]
    split
    · next none => exact ⟨rfl, rfl, rfl⟩
    · next slot freed some =>
      split
      · exact ⟨rfl, rfl, rfl⟩
      · obtain ⟨rest, flight, rx⟩ := ih (i + 1) { t with
          freed := freed
          setCursor := if w.strideLoad then t.setCursor + w.conns else t.setCursor
          nextSend := t.nextSend + interval.getD 0 }
        exact ⟨some.trans (congrArg _ rest), flight, rx⟩

/-- Something is sent where a slot is due and a key is left. -/
theorem send_ne_nil {pick : ℕ → UInt64} {i n : ℕ} (slot : t.freed ≠ []) (some : 0 < n) (left : ¬ Spent w t) :
    (send w interval pick i n t).2 ≠ [] := by
  cases n with
  | zero => exact absurd some (Nat.lt_irrefl 0)
  | succ n =>
    rw [send]
    split
    · next none => exact absurd none slot
    · rw [if_neg left]
      exact List.cons_ne_nil _ _

theorem send_of_spent {pick : ℕ → UInt64} {i n : ℕ} (spent : Spent w t) : send w interval pick i n t = (t, []) := by
  cases n with
  | zero => rfl
  | succ n =>
    rw [send]
    split
    · rfl
    · rw [if_pos spent]

theorem freed_ne_nil_of_due {tick : ℤ} (some : 0 < due interval tick t) : t.freed ≠ [] := by
  rintro none
  unfold due at some
  cases interval with
  | none => simp [none] at some
  | some interval => simp [none, dueBy] at some

theorem sendDue_of_spent {tick : ℤ} {pick : ℕ → UInt64} (spent : Spent w t) (some : 0 < due interval tick t) :
    sendDue w interval tick pick t = ({ t with freed := [] }, []) := by
  rw [sendDue, if_neg (Nat.ne_of_gt some), send_of_spent spent]
  simp only [List.append_nil]
  rw [if_pos spent]

/-- A round and what it may end with: nothing is sent, or something is, or the free slots are dropped. -/
theorem sendDue_cases (tick : ℤ) (pick : ℕ → UInt64) (t : Thread) :
    sendDue w interval tick pick t = (t, []) ∧ due interval tick t = 0 ∨
      Spent w t ∧ 0 < due interval tick t ∧ sendDue w interval tick pick t = ({ t with freed := [] }, []) ∨
      (sendDue w interval tick pick t).2 ≠ [] ∧
        (sendDue w interval tick pick t).1.inFlight = t.inFlight ++ (sendDue w interval tick pick t).2 := by
  rcases Nat.eq_zero_or_pos (due interval tick t) with none | some
  · exact .inl ⟨by rw [sendDue, if_pos none], none⟩
  · rcases Decidable.em (Spent w t) with spent | left
    · exact .inr (.inl ⟨spent, some, sendDue_of_spent spent some⟩)
    · refine .inr (.inr ?_)
      have sent : (send w interval pick 0 (due interval tick t) t).2 ≠ [] :=
        send_ne_nil (freed_ne_nil_of_due some) some left
      have flight := (send_slots w interval pick 0 (due interval tick t) t).2.1
      rw [sendDue, if_neg (Nat.ne_of_gt some)]
      refine ⟨sent, ?_⟩
      dsimp only
      split
      · exact congrArg (· ++ _) flight
      · exact congrArg (· ++ _) flight

theorem sendDue_slots {tick : ℤ} {pick : ℕ → UInt64} (slots : Slots w t) :
    Slots w (sendDue w interval tick pick t).1 := by
  obtain ⟨freed, flight, _⟩ := send_slots w interval pick 0 (due interval tick t) t
  have all := slots.freed
  rw [freed] at all
  have sent : Slots w { (send w interval pick 0 (due interval tick t) t).1 with
      inFlight := (send w interval pick 0 (due interval tick t) t).1.inFlight ++
        (send w interval pick 0 (due interval tick t) t).2 } := by
    refine ⟨fun slot member => all slot (List.mem_append_right _ member), fun ask member => ?_⟩
    rw [flight] at member
    rcases List.mem_append.mp member with before | now
    · exact slots.inFlight ask before
    · exact all _ (List.mem_append_left _ (List.mem_map_of_mem now))
  rw [sendDue]
  split
  · exact slots
  · dsimp only
    split
    · exact ⟨fun _ none => (List.not_mem_nil none).elim, sent.inFlight⟩
    · exact sent

theorem sendDue_rx (tick : ℤ) (pick : ℕ → UInt64) (t : Thread) : (sendDue w interval tick pick t).1.rx = t.rx := by
  have kept := (send_slots w interval pick 0 (due interval tick t) t).2.2
  rw [sendDue]
  split
  · rfl
  · dsimp only
    split <;> exact kept

theorem answer_slots {reply : Reply} (slots : Slots w t) : Slots w (answer w t reply) := by
  refine ⟨fun slot member => ?_, fun ask member => slots.inFlight ask (List.mem_of_mem_eraseP member)⟩
  simp only [answer] at member
  split at member
  · next inside =>
    rcases List.mem_cons.mp member with rfl | before
    · exact inside
    · exact slots.freed slot before
  · exact slots.freed slot member

/-- An answer to a request frees its slot. -/
theorem answer_busy {reply : Reply} (slots : Slots w t) (busy : t.inFlight ≠ [] ∨ t.freed ≠ []) :
    (answer w t reply).inFlight ≠ [] ∨ (answer w t reply).freed ≠ [] := by
  simp only [answer]
  split
  · exact .inr (List.cons_ne_nil _ _)
  · next outside =>
    rw [List.eraseP_of_forall_not]
    · exact busy
    · intro ask member same
      exact outside (of_decide_eq_true same ▸ slots.inFlight ask member)

theorem answers_kept (replies : List Reply) (slots : Slots w t) (busy : t.inFlight ≠ [] ∨ t.freed ≠ []) :
    Slots w (replies.foldl (answer w) t) ∧
      ((replies.foldl (answer w) t).inFlight ≠ [] ∨ (replies.foldl (answer w) t).freed ≠ []) ∧
      (replies.foldl (answer w) t).rx = t.rx ∧ (replies.foldl (answer w) t).phase = t.phase := by
  induction replies generalizing t with
  | nil => exact ⟨slots, busy, rfl, rfl⟩
  | cons reply rest ih => exact ih (answer_slots slots) (answer_busy slots busy)

/-- What holds of a connection until it waits for nothing. -/
structure Inv (w : Workload) (t : Thread) : Prop where
  slots : Slots w t
  rest : t.phase ≠ .finished → ¬ Whole t.rx
  busy : t.phase ≠ .filling → t.phase ≠ .finished → t.inFlight ≠ [] ∨ t.freed ≠ []
  awaits : t.phase = .receiving false → t.inFlight ≠ []

theorem inv_start {threadIndex : ℕ} {nextSend : ℤ} (accepted : w.Accepted) : Inv w (start w threadIndex nextSend) := by
  have positive : w.pipeline.toNat ≠ 0 := fun zero => accepted.2.1 (UInt64.toNat_inj.mp zero)
  have phase : (start w threadIndex nextSend).phase = .filling ∨ (start w threadIndex nextSend).phase = .top := by
    unfold start
    dsimp only
    split <;> simp
  refine ⟨⟨fun slot member => ?_, fun ask none => (List.not_mem_nil none).elim⟩, fun _ whole => ?_, fun _ _ => .inr ?_,
    fun waiting => ?_⟩
  · obtain ⟨n, inside, rfl⟩ := List.mem_map.mp (List.mem_reverse.mp member)
    rw [UInt32.toNat_ofNat']
    exact (Nat.mod_le _ _).trans_lt (List.mem_range.mp inside)
  · exact absurd (show kHeaderSize ≤ 0 from whole.1) (by decide)
  · simpa [start] using positive
  · rcases phase with filling | top
    · exact absurd (filling.symm.trans waiting) (by decide)
    · exact absurd (top.symm.trans waiting) (by decide)

theorem Inv.of_finished (slots : Slots w t) (finished : t.phase = .finished) : Inv w t where
  slots := slots
  rest := fun running => absurd finished running
  busy := fun _ running => absurd finished running
  awaits := fun waiting => absurd (finished.symm.trans waiting) (by decide)

theorem inv_receive {chunk : Bytes} {polled : Bool} (inv : Inv w t) (phase : t.phase = .receiving polled) :
    Inv w (receive w chunk t) := by
  have busy := inv.busy (by simp [phase]) (by simp [phase])
  have slots : Slots w { t with rx := (responses (t.rx ++ chunk).length (t.rx ++ chunk)).2.1, phase := .top } :=
    ⟨inv.slots.freed, inv.slots.inFlight⟩
  obtain ⟨kept, still, rx, top⟩ :=
    answers_kept (responses (t.rx ++ chunk).length (t.rx ++ chunk)).1 slots busy
  rw [receive]
  split
  · exact .of_finished ⟨inv.slots.freed, inv.slots.inFlight⟩ rfl
  · dsimp only
    split
    · exact .of_finished ⟨kept.freed, kept.inFlight⟩ rfl
    · next synced =>
      refine ⟨kept, fun _ => ?_, fun _ _ => still, fun waiting => ?_⟩
      · rw [rx]
        exact not_whole_of_responses le_rfl (Bool.not_eq_true _ ▸ synced)
      · exact absurd (show Phase.top = .receiving false from top.symm.trans waiting) (by decide)

/-- A round keeps the invariant unless it finds all keys of a load sent and answered. -/
theorem inv_round {tick : ℤ} {pick : ℕ → UInt64} {written : Bool} {now : ℤ} (inv : Inv w t) (phase : t.phase = .top)
    (unfinished : Unfinished w interval t (.round tick pick written now)) :
    Inv w (round w interval tick pick written now t) := by
  have busy := inv.busy (by simp [phase]) (by simp [phase])
  have slots : Slots w (sendDue w interval tick pick t).1 := sendDue_slots inv.slots
  have rest : ¬ Whole (sendDue w interval tick pick t).1.rx := by
    rw [sendDue_rx]
    exact inv.rest (by simp [phase])
  have flight : (sendDue w interval tick pick t).1.inFlight ≠ [] ∨
      (sendDue w interval tick pick t).1.freed ≠ [] ∧ interval.isSome := by
    rcases sendDue_cases tick pick t with ⟨same, none⟩ | ⟨spent, some, same⟩ | ⟨sent, flight⟩
    · rw [same]
      cases interval with
      | none => exact .inl (busy.resolve_right (not_not.mpr (List.length_eq_zero_iff.mp none)))
      | some interval => exact busy.imp_right fun free => ⟨free, rfl⟩
    · rw [same]
      exact .inl fun answered => unfinished ⟨spent, answered, some⟩
    · rw [flight]
      exact .inl (List.append_ne_nil_of_right_ne_nil _ sent)
  rw [round]
  dsimp only
  split
  · exact .of_finished ⟨slots.freed, slots.inFlight⟩ rfl
  · split
    · split <;>
        exact ⟨⟨slots.freed, slots.inFlight⟩, fun _ => rest, fun _ _ => flight.imp_right And.left, fun waiting => by
          cases waiting⟩
    · next blocking =>
      have outstanding := flight.resolve_right fun ⟨free, paced⟩ => blocking ⟨paced, free⟩
      exact ⟨⟨slots.freed, slots.inFlight⟩, fun _ => rest, fun _ _ => .inl outstanding, fun _ => outstanding⟩

theorem step_cases (run : step w interval t e = some next) :
    t.phase = .top ∧ e = .stop ∧ next = { t with phase := .finished } ∨
      (t.phase = .top ∧ ∃ tick pick written now, e = .round tick pick written now ∧
        next = round w interval tick pick written now t) ∨
      (t.phase = .polling ∧ ∃ ready, e = .poll ready ∧
        next = { t with phase := if ready then .receiving true else .top }) ∨
      ∃ polled chunk, t.phase = .receiving polled ∧ e = .receive chunk ∧ next = receive w chunk t := by
  unfold step at run
  split at run
  · next top => exact .inl ⟨top, rfl, (Option.some.inj run).symm⟩
  · next top => exact .inr (.inl ⟨top, _, _, _, _, rfl, (Option.some.inj run).symm⟩)
  · next polling => exact .inr (.inr (.inl ⟨polling, _, rfl, (Option.some.inj run).symm⟩))
  · next receiving => exact .inr (.inr (.inr ⟨_, _, receiving, rfl, (Option.some.inj run).symm⟩))
  · cases run

theorem inv_step (inv : Inv w t) (unfinished : Unfinished w interval t e) (run : step w interval t e = some next) :
    Inv w next := by
  rcases step_cases run with ⟨top, rfl, rfl⟩ | ⟨top, tick, pick, written, now, rfl, rfl⟩ |
    ⟨polling, ready, rfl, rfl⟩ | ⟨polled, chunk, receiving, rfl, rfl⟩
  · exact .of_finished ⟨inv.slots.freed, inv.slots.inFlight⟩ rfl
  · exact inv_round inv top unfinished
  · refine ⟨⟨inv.slots.freed, inv.slots.inFlight⟩, fun _ => inv.rest (by simp [polling]),
      fun _ _ => inv.busy (by simp [polling]) (by simp [polling]), fun waiting => ?_⟩
    cases ready with
    | true | false => cases waiting
  · exact inv_receive inv receiving

/-- A load of which all keys are sent and answered blocks as soon as a slot is due. -/
theorem blocks_of_finished (unfinished : ¬ Unfinished w interval t e) (run : step w interval t e = some next) :
    next.phase = .receiving false ∧ next.inFlight = [] := by
  rcases step_cases run with ⟨_, rfl, _⟩ | ⟨_, tick, pick, written, now, rfl, rfl⟩ | ⟨_, _, rfl, _⟩ |
    ⟨_, _, _, rfl, _⟩
  · exact absurd trivial unfinished
  · obtain ⟨spent, answered, some⟩ := not_not.mp unfinished
    rw [round, sendDue_of_spent spent some]
    simp [answered]
  · exact absurd trivial unfinished
  · exact absurd trivial unfinished

end Steps

/-- A connection never blocks without a response to come exactly if no round finds slots due in a load of which all
keys are sent and answered. In the other modes there is no such round. -/
theorem blocks_for_response_iff {w : Workload} (accepted : w.Accepted) (interval : Option ℤ) (threadIndex : ℕ)
    (nextSend : ℤ) {tape : List Event} {t : Thread}
    (run : exec (step w interval) (start w threadIndex nextSend) tape = some t) :
    (Along (step w interval) Awaits (start w threadIndex nextSend) tape ↔
      exec (restrict (Unfinished w interval) (step w interval)) (start w threadIndex nextSend) tape = some t) ∧
      (w.strideLoad = false → Along (step w interval) Awaits (start w threadIndex nextSend) tape) := by
  have observed : ∀ {t}, Inv w t → Awaits t := fun inv waiting =>
    ⟨inv.awaits waiting, inv.rest (by simp [waiting])⟩
  constructor
  · refine along_iff_restrict (inv_start accepted) inv_step observed ?_ run
    intro s e next _ finished taken awaits
    obtain ⟨blocked, nothing⟩ := blocks_of_finished finished taken
    exact (awaits blocked).1 nothing
  · intro other
    have always : ∀ s e, Unfinished w interval s e := by
      intro s e
      cases e with
      | round => exact fun finished => absurd finished.1.1 (by simp [other])
      | stop | poll | receive => trivial
    exact Along.of_invariant (inv_start accepted) (fun inv taken => inv_step inv (always _ _) taken) observed tape

/-- One key over one connection. -/
def oneKey : Workload where
  doSet := true
  conns := 1
  pipeline := 1
  keys := 1

/-- The response to the first request. -/
def firstResponse : Bytes := [0x81, 0x01] ++ List.replicate 22 0

theorem blocks_for_response_iff_first : ∃ t : Thread,
    exec (step oneKey none) (start oneKey 0 0) [.round 0 (fun _ => 0) true 0, .receive firstResponse] = some t ∧
      t.result.ops = 1 ∧
      Along (step oneKey none) Awaits (start oneKey 0 0) [.round 0 (fun _ => 0) true 0, .receive firstResponse] := by
  obtain ⟨t, run, ops⟩ : ∃ t, exec (restrict (Unfinished oneKey none) (step oneKey none)) (start oneKey 0 0)
      [.round 0 (fun _ => 0) true 0, .receive firstResponse] = some t ∧ t.result.ops = 1 :=
    exists_exec (by decide +kernel)
  exact ⟨t, exec_of_restrict run, ops,
    (blocks_for_response_iff (by decide) none 0 0 (exec_of_restrict run)).1.mpr run⟩

/-- The one key is written, and the next round waits for a response that will not come. -/
theorem written_load_blocks : ∃ t : Thread,
    exec (step oneKey none) (start oneKey 0 0)
      [.round 0 (fun _ => 0) true 0, .receive firstResponse, .round 0 (fun _ => 0) true 0] = some t ∧
      t.phase = .receiving false ∧ t.inFlight = [] ∧ t.result.ops = 1 ∧ ¬ Awaits t := by
  obtain ⟨t, run, phase, nothing, ops⟩ : ∃ t, exec (step oneKey none) (start oneKey 0 0)
      [.round 0 (fun _ => 0) true 0, .receive firstResponse, .round 0 (fun _ => 0) true 0] = some t ∧
        t.phase = .receiving false ∧ t.inFlight = [] ∧ t.result.ops = 1 := exists_exec (by decide +kernel)
  exact ⟨t, run, phase, nothing, ops, fun awaits => (awaits phase).1 nothing⟩

end FluxKV.Client.Window
