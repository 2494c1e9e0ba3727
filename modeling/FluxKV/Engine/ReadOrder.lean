import FluxKV.Engine.ReadQueue
import FluxKV.ToMathlib.Batching

/-! # The order in which GETs are served

With one owner per vbucket, one call at a time collects. The GETs in batches, those in its hands, the overflow and the
list are then, in this order, all that were pushed. A round that takes fewer than the cap has swept the list, so it
has taken all that was pushed before it began, and the wait of a GET is bounded by the number of those before it.
-/

namespace FluxKV.Engine.ReadQueue

open Machine Batching

namespace Call

variable {ρ : Type*} {cfg : Config}

/-- The GETs a round has in hand before they are accounted. -/
def hand : Call ρ → List ρ
  | drained _ batch | spilling _ batch | accounting _ batch => batch
  | done | pushed | counted _ | arming .. | submitting | holding | serving _ | releasing | stepped | noOverflow
  | nothing | rearm | rearming _ | resubmitting => []

theorem hand_eq_nil (call : Call ρ) (free : call.tokens = 0) : call.hand = [] := by
  cases call with
  | drained | spilling | accounting => cases free
  | _ => rfl

theorem hand_collected (start : ℕ) (batch : List ρ) : (collected cfg start batch).hand = batch := by
  unfold collected
  split_ifs with none
  · exact none.symm
  · rfl
  · rfl

theorem hand_drain (start : ℕ) (batch : List ρ) : (drain cfg start batch).hand = batch := by
  unfold drain
  split
  · rfl
  · exact hand_collected start batch

end Call

namespace State

variable {ρ : Type*} {cfg : Config} {s : State ρ} {e : Event ρ} {i : ℕ} {old : Call ρ}

/-- The GETs in the hands of rounds. -/
def inHand (s : State ρ) : List ρ := s.calls.flatMap Call.hand

/-- A round began after all that were accounted before. -/
def Begun (s : State ρ) (start : ℕ) : Prop := start ≤ s.pushes.length ∧ ∀ round ∈ s.rounds, round.finish ≤ start

/-- What holds of a round that is collecting. -/
def Collecting (cfg : Config) (s : State ρ) : Call ρ → Prop
  | .drained start batch => s.Begun start ∧ s.overflow = [] ∧ batch.length < cfg.gMaxReadBatch
  | .spilling start batch => s.Begun start ∧ s.overflow = [] ∧ cfg.gMaxReadBatch < batch.length
  | .accounting start batch => s.Begun start ∧ batch ≠ [] ∧ batch.length ≤ cfg.gMaxReadBatch ∧
      (batch.length = cfg.gMaxReadBatch ∨ start ≤ s.batched.length + batch.length)
  | _ => True

/-- The rounds that were accounted follow one another and take from the front of the line. -/
structure Rounds (cfg : Config) (pushes : List ρ) (behind : List ℕ) (rounds : List (Round ρ)) : Prop where
  nonempty : ∀ round ∈ rounds, round.batch ≠ []
  capped : ∀ round ∈ rounds, round.batch.length ≤ cfg.gMaxReadBatch
  ended : ∀ round ∈ rounds, round.start ≤ round.finish ∧ round.finish ≤ pushes.length
  sorted : rounds.Pairwise fun a b => a.finish ≤ b.start
  within : ∀ before round after, rounds = before ++ round :: after →
    (before.flatMap Round.batch).length + round.batch.length ≤ round.finish
  thorough : Thorough Round.start Round.batch cfg.gMaxReadBatch rounds
  noted : behind.length = pushes.length
  behind : ∀ n b, behind[n]? = some b → n ≤ b + ((rounds.filter fun r => r.start ≤ n).flatMap Round.batch).length

/-- The GETs are in line. -/
structure InLine (cfg : Config) (s : State ρ) : Prop where
  line : s.batched ++ s.inHand ++ s.overflow ++ s.list.reverse = s.pushes
  collecting : ∀ call ∈ s.calls, s.Collecting cfg call
  rounds : Rounds cfg s.pushes s.behind s.rounds

theorem InLine.initial : (initial : State ρ).InLine cfg where
  line := rfl
  collecting := by rintro _ ⟨⟩
  rounds := by
    refine ⟨by rintro _ ⟨⟩, by rintro _ ⟨⟩, by rintro _ ⟨⟩, .nil, ?_, ?_, rfl, ?_⟩
    · exact fun _ _ _ split => by simp [State.initial] at split
    · exact fun _ _ _ split => by simp [State.initial] at split
    · exact fun _ _ found => by simp [State.initial] at found

/-- A call without a token collects nothing. -/
theorem collecting_of_free {call : Call ρ} (free : call.tokens = 0) : s.Collecting cfg call := by
  cases call with
  | drained | spilling | accounting => cases free
  | _ => trivial

/-- A call that has nothing in hand before and after moves on and leaves the line alone. -/
private theorem InLine.moves (inLine : s.InLine cfg) (here : s.At i old) {new : Call ρ} {t : State ρ}
    (calls : t.calls = s.calls.set i new) (same : (t.list, t.overflow, t.pushes, t.behind, t.rounds) =
      (s.list, s.overflow, s.pushes, s.behind, s.rounds)) (empty : old.hand = []) (none : new.hand = [])
    (idle : t.Collecting cfg new) : t.InLine cfg := by
  simp only [Prod.mk.injEq] at same
  obtain ⟨list, overflow, pushes, behind, rounds⟩ := same
  have batched : t.batched = s.batched := by rw [State.batched, rounds, State.batched]
  refine ⟨?_, ?_, ?_⟩
  · rw [batched, inHand, calls, flatMap_set_of_eq here (none.trans empty.symm), overflow, list, pushes]
    exact inLine.line
  · rw [calls]
    refine forall_mem_set idle fun call member => ?_
    have before := inLine.collecting call member
    cases call <;> simp only [Collecting, Begun, overflow, pushes, rounds, batched] at before ⊢ <;> exact before
  · rw [pushes, behind, rounds]
    exact inLine.rounds

/-- One owner: the call with the token is alone. -/
structure Alone (s : State ρ) (i : ℕ) (old : Call ρ) : Prop where
  here : s.At i old
  token : old.tokens = 1
  single : (s.calls.map Call.tokens).sum ≤ 1

theorem Owned.alone (owned : s.Owned cfg) (one : cfg.gMaxReadOwners = 1) (here : s.At i old) (token : old.tokens = 1) :
    s.Alone i old := by
  have owners := owned.owners
  have bound := owned.bound
  exact ⟨here, token, by omega⟩

theorem Alone.hand_set (alone : s.Alone i old) (new : Call ρ) : (s.calls.set i new).flatMap Call.hand = new.hand :=
  flatMap_set_of_alone Call.hand_eq_nil alone.here alone.token alone.single new

theorem Alone.inHand (alone : s.Alone i old) : s.inHand = old.hand := by
  have same := alone.hand_set old
  rwa [flatMap_set_of_eq alone.here rfl] at same

/-- The collecting call moves on: the others have no token. -/
private theorem Alone.inLine (alone : s.Alone i old) {new : Call ρ} {t : State ρ} (calls : t.calls = s.calls.set i new)
    (line : t.batched ++ new.hand ++ t.overflow ++ t.list.reverse = t.pushes) (collecting : t.Collecting cfg new)
    (rounds : Rounds cfg t.pushes t.behind t.rounds) : t.InLine cfg := by
  refine ⟨?_, fun call member => ?_, rounds⟩
  · rw [State.inHand, calls, alone.hand_set]
    exact line
  · rw [calls] at member
    rcases mem_set_of_alone alone.here alone.token alone.single member with rfl | free
    · exact collecting
    · exact collecting_of_free free

/-- A batch has room for something. -/
private theorem ne_nil_of_full {batch : List ρ} (full : batch.length = cfg.gMaxReadBatch) : batch ≠ [] :=
  List.ne_nil_of_length_pos (full ▸ cfg.batch_pos)

private theorem InLine.drain (inLine : s.InLine cfg) (alone : s.Alone i .holding) :
    (s.next cfg (.drain i)).InLine cfg := by
  have begun : s.Begun s.pushes.length := ⟨le_rfl, fun round member => (inLine.rounds.ended round member).2⟩
  refine alone.inLine rfl ?_ ?_ inLine.rounds
  · have line := inLine.line
    rw [alone.inHand, Call.hand, List.append_nil] at line
    rw [Call.hand_drain]
    show s.batched ++ s.overflow.take _ ++ s.overflow.drop _ ++ s.list.reverse = s.pushes
    rw [List.append_assoc s.batched, List.take_append_drop]
    exact line
  · unfold Call.drain
    have length : (s.overflow.take cfg.gMaxReadBatch).length = min cfg.gMaxReadBatch s.overflow.length :=
      List.length_take
    split_ifs with room
    · exact ⟨begun, List.drop_eq_nil_of_le (by omega), room⟩
    · have full : (s.overflow.take cfg.gMaxReadBatch).length = cfg.gMaxReadBatch := by omega
      rw [Call.collected, if_neg (ne_nil_of_full full), if_neg full.le.not_gt]
      exact ⟨begun, ne_nil_of_full full, full.le, .inl full⟩

private theorem InLine.sweep (inLine : s.InLine cfg) {start : ℕ} {batch : List ρ}
    (alone : s.Alone i (.drained start batch)) : (s.next cfg (.sweep i start batch)).InLine cfg := by
  obtain ⟨begun, clear, _⟩ := inLine.collecting _ (List.mem_of_getElem? alone.here)
  have line : s.batched ++ (batch ++ s.list.reverse) = s.pushes := by
    have line := inLine.line
    rwa [alone.inHand, clear, List.append_nil, Call.hand, List.append_assoc] at line
  refine alone.inLine rfl ?_ ?_ inLine.rounds
  · rw [Call.hand_collected]
    show s.batched ++ (batch ++ s.list.reverse) ++ s.overflow ++ [].reverse = s.pushes
    rw [clear, List.append_nil, List.reverse_nil, List.append_nil]
    exact line
  · unfold Call.collected
    split_ifs with none excess
    · trivial
    · exact ⟨begun, clear, excess⟩
    · refine ⟨begun, none, Nat.le_of_not_lt excess, .inr ?_⟩
      have all := congrArg List.length line
      rw [List.length_append] at all
      have before := begun.1
      show start ≤ s.batched.length + (batch ++ s.list.reverse).length
      omega

private theorem InLine.spill (inLine : s.InLine cfg) {start : ℕ} {batch : List ρ}
    (alone : s.Alone i (.spilling start batch)) : (s.next cfg (.spill i start batch)).InLine cfg := by
  obtain ⟨begun, clear, excess⟩ := inLine.collecting _ (List.mem_of_getElem? alone.here)
  have full : (batch.take cfg.gMaxReadBatch).length = cfg.gMaxReadBatch := by
    rw [List.length_take]
    omega
  refine alone.inLine rfl ?_ ⟨begun, ne_nil_of_full full, full.le, .inl full⟩ inLine.rounds
  have line := inLine.line
  rw [alone.inHand, clear, List.append_nil, Call.hand] at line
  show s.batched ++ batch.take _ ++ (s.overflow ++ batch.drop _) ++ s.list.reverse = s.pushes
  rw [clear, List.nil_append, List.append_assoc s.batched, List.take_append_drop]
  exact line

/-- One more round is accounted. -/
private theorem Rounds.concat {pushes : List ρ} {behind : List ℕ} {rounds : List (Round ρ)}
    (before : Rounds cfg pushes behind rounds) {start : ℕ} {batch : List ρ} (some : batch ≠ [])
    (capped : batch.length ≤ cfg.gMaxReadBatch) (begun : start ≤ pushes.length)
    (after : ∀ round ∈ rounds, round.finish ≤ start)
    (full : batch.length = cfg.gMaxReadBatch ∨ start ≤ (rounds.flatMap Round.batch).length + batch.length)
    (inside : (rounds.flatMap Round.batch).length + batch.length ≤ pushes.length) :
    Rounds cfg pushes behind (rounds ++ [⟨start, pushes.length, batch⟩]) where
  nonempty := List.forall_mem_append.mpr ⟨before.nonempty, by simpa using some⟩
  capped := List.forall_mem_append.mpr ⟨before.capped, by simpa using capped⟩
  ended := List.forall_mem_append.mpr ⟨before.ended, by simpa using begun⟩
  sorted := by
    refine List.pairwise_append.mpr ⟨before.sorted, List.pairwise_singleton .., fun a old b new => ?_⟩
    rw [List.mem_singleton.mp new]
    exact after a old
  within earlier round later split := by
    rcases List.eq_nil_or_concat later with rfl | ⟨rest, final, rfl⟩
    · obtain ⟨rfl, same⟩ := List.append_inj' split rfl
      obtain rfl := List.singleton_inj.mp same
      exact inside
    · rw [List.concat_eq_append, ← List.cons_append, ← List.append_assoc] at split
      exact before.within earlier round rest (List.append_inj' split rfl).1
  thorough := before.thorough.concat full
  noted := before.noted
  behind n b found := by
    have bound := before.behind n b found
    rw [List.filter_append, List.flatMap_append, List.length_append]
    omega

private theorem InLine.account (inLine : s.InLine cfg) {start : ℕ} {batch : List ρ}
    (alone : s.Alone i (.accounting start batch)) : (s.next cfg (.account i start batch)).InLine cfg := by
  obtain ⟨⟨begun, after⟩, some, capped, full⟩ := inLine.collecting _ (List.mem_of_getElem? alone.here)
  have line := inLine.line
  rw [alone.inHand, Call.hand] at line
  refine alone.inLine rfl ?_ trivial (inLine.rounds.concat some capped begun after full ?_)
  · show (s.rounds ++ [_]).flatMap Round.batch ++ [] ++ s.overflow ++ s.list.reverse = s.pushes
    rw [List.flatMap_append, List.flatMap_singleton, List.append_nil]
    exact line
  · have all := congrArg List.length line
    simp only [List.length_append] at all
    have batched : s.batched.length = (s.rounds.flatMap Round.batch).length := rfl
    omega

/-- One more GET is pushed, behind all that are in no batch yet. -/
private theorem Rounds.push {pushes : List ρ} {behind : List ℕ} {rounds : List (Round ρ)}
    (before : Rounds cfg pushes behind rounds) (req : ρ) :
    Rounds cfg (pushes ++ [req]) (behind ++ [pushes.length - (rounds.flatMap Round.batch).length]) rounds where
  nonempty := before.nonempty
  capped := before.capped
  ended round member := by
    obtain ⟨order, inside⟩ := before.ended round member
    rw [List.length_append]
    exact ⟨order, inside.trans (Nat.le_add_right ..)⟩
  sorted := before.sorted
  within := before.within
  thorough := before.thorough
  noted := by rw [List.length_append, List.length_append, before.noted, List.length_singleton, List.length_singleton]
  behind n b found := by
    rcases Nat.lt_or_ge n behind.length with old | new
    · exact before.behind n b (by rwa [List.getElem?_append_left old] at found)
    · have last : n = behind.length := by
        have inside := (List.getElem?_eq_some_iff.mp found).1
        rw [List.length_append, List.length_singleton] at inside
        omega
      -- every round so far began before this push
      have all : rounds.filter (fun r => r.start ≤ n) = rounds :=
        List.filter_eq_self.mpr fun r member => by
          obtain ⟨order, inside⟩ := before.ended r member
          simpa [last, before.noted] using order.trans inside
      rw [last, List.getElem?_concat_length, Option.some.injEq] at found
      rw [all, last, before.noted]
      omega

private theorem InLine.push (inLine : s.InLine cfg) (req : ρ) : (s.next cfg (.push req)).InLine cfg := by
  refine ⟨?_, ?_, inLine.rounds.push req⟩
  · show s.batched ++ (s.calls ++ [Call.pushed]).flatMap Call.hand ++ s.overflow ++ (req :: s.list).reverse =
      s.pushes ++ [req]
    rw [List.flatMap_append, List.flatMap_singleton, Call.hand, List.append_nil, List.reverse_cons,
      ← List.append_assoc]
    exact congrArg (· ++ [req]) inLine.line
  · refine List.forall_mem_append.mpr ⟨fun call member => ?_, by simp [Collecting]⟩
    have longer : ∀ start, s.Begun start → (s.next cfg (.push req)).Begun start :=
      fun start begun => ⟨begun.1.trans (List.length_append ▸ Nat.le_add_right ..), begun.2⟩
    have before := inLine.collecting call member
    cases call with
    | drained start batch | spilling start batch | accounting start batch =>
      exact ⟨longer start before.1, before.2⟩
    | _ => trivial

private theorem InLine.take (inLine : s.InLine cfg) : (s.next cfg .take).InLine cfg := by
  refine ⟨?_, List.forall_mem_append.mpr ⟨inLine.collecting, by simp [Collecting]⟩, inLine.rounds⟩
  show s.batched ++ (s.calls ++ [Call.holding]).flatMap Call.hand ++ s.overflow ++ s.list.reverse = s.pushes
  rw [List.flatMap_append, List.flatMap_singleton, Call.hand, List.append_nil]
  exact inLine.line

/-- A call without a token moves on to where it has none. -/
private theorem InLine.moves_free (inLine : s.InLine cfg) (here : s.At i old) {new : Call ρ} {t : State ρ}
    (calls : t.calls = s.calls.set i new) (same : (t.list, t.overflow, t.pushes, t.behind, t.rounds) =
      (s.list, s.overflow, s.pushes, s.behind, s.rounds)) (empty : old.tokens = 0) (none : new.tokens = 0) :
    t.InLine cfg :=
  inLine.moves here calls same (old.hand_eq_nil empty) (new.hand_eq_nil none) (collecting_of_free none)

theorem InLine.next [DecidableEq ρ] (one : cfg.gMaxReadOwners = 1) (owned : s.Owned cfg) (inLine : s.InLine cfg)
    (able : s.enabled e) : (s.next cfg e).InLine cfg := by
  cases e with
  | push req => exact inLine.push req
  | count i => exact inLine.moves_free (of_decide_eq_true able) rfl rfl rfl rfl
  | load i depth => exact inLine.moves_free (of_decide_eq_true able) rfl rfl rfl (Call.tokens_enqueue ..)
  | exchange i depth owners ok =>
    obtain ⟨here, _⟩ := of_decide_eq_true able
    cases ok with
    | false => exact inLine.moves_free here rfl rfl rfl (Call.tokens_enqueue ..)
    | true => exact inLine.moves here rfl rfl rfl rfl trivial
  | submit | serve | stepDown | resubmit => exact inLine.moves (of_decide_eq_true able) rfl rfl rfl rfl trivial
  | take => exact inLine.take
  | drain i => exact inLine.drain (owned.alone one (of_decide_eq_true able) rfl)
  | sweep i start batch => exact inLine.sweep (owned.alone one (of_decide_eq_true able) rfl)
  | spill i start batch => exact inLine.spill (owned.alone one (of_decide_eq_true able) rfl)
  | account i start batch => exact inLine.account (owned.alone one (of_decide_eq_true able) rfl)
  | lookOverflow i | lookList i | lookDepth i =>
    refine inLine.moves_free (of_decide_eq_true able) rfl rfl rfl ?_
    split <;> rfl
  | reload i => exact inLine.moves_free (of_decide_eq_true able) rfl rfl rfl (Call.tokens_release _)
  | reexchange i owners ok =>
    obtain ⟨here, _⟩ := of_decide_eq_true able
    cases ok with
    | false => exact inLine.moves_free here rfl rfl rfl (Call.tokens_release _)
    | true => exact inLine.moves here rfl rfl rfl rfl trivial

theorem inLine_of_reach [DecidableEq ρ] (one : cfg.gMaxReadOwners = 1) (reached : Reach (step cfg) initial s) :
    s.InLine cfg := by
  have both : s.Owned cfg ∧ s.InLine cfg := by
    refine reached.invariant (P := fun s => s.Owned cfg ∧ s.InLine cfg) ⟨.initial, .initial⟩ ?_
    rintro s e t ⟨owned, inLine⟩ taken
    obtain ⟨able, rfl⟩ := step_eq_some.mp taken
    exact ⟨owned.next able, inLine.next one owned able⟩
  exact both.2

/-- The batch of `round`, which follows the rounds `before`, holds the GET that was pushed after `n` others. -/
def InBatch (s : State ρ) (n : ℕ) (before : List (Round ρ)) (round : Round ρ) : Prop :=
  (∃ after, s.rounds = before ++ round :: after) ∧ (before.flatMap Round.batch).length ≤ n ∧
    n < (before.flatMap Round.batch).length + round.batch.length

/-- With one owner: the batches, the round in progress, the overflow and the list are in this order what was pushed,
each GET once; batches are not empty and within the cap; a GET that found `b` before it in no batch is in the batch
of the round that was in progress at its push, or of one of the first `⌈(b + 1) / cap⌉` rounds begun after it, once
there are as many; and once there is no task and no call in progress, every GET is in a batch. -/
theorem reads_in_order [DecidableEq ρ] (one : cfg.gMaxReadOwners = 1) (reached : Reach (step cfg) initial s) :
    s.batched ++ s.inHand ++ s.overflow ++ s.list.reverse = s.pushes ∧
      (∀ round ∈ s.rounds, round.batch ≠ [] ∧ round.batch.length ≤ cfg.gMaxReadBatch) ∧
      (∀ n b, s.behind[n]? = some b →
        (∃ before round, s.InBatch n before round ∧ (round.start ≤ n ∧ n < round.finish ∨
          n < round.start ∧ (before.filter fun r => n < r.start).length < (b + 1) ⌈/⌉ cfg.gMaxReadBatch)) ∨
        (s.rounds.filter fun r => n < r.start).length < (b + 1) ⌈/⌉ cfg.gMaxReadBatch) ∧
      (s.taskQueue = 0 → (∀ call ∈ s.calls, call = .done) → s.batched = s.pushes) := by
  have inLine := inLine_of_reach one reached
  have rounds := inLine.rounds
  refine ⟨inLine.line, fun round member => ⟨rounds.nonempty round member, rounds.capped round member⟩, ?_, ?_⟩
  · intro n b found
    have sorted : s.rounds.Pairwise fun a b => a.start ≤ b.start :=
      rounds.sorted.imp_of_mem fun first _ apart => ((rounds.ended _ first).1).trans apart
    refine (rounds.thorough.bounded_wait cfg.batch_pos sorted (rounds.behind n b found)).imp_left ?_
    rintro ⟨before, round, after, split, low, high, few⟩
    refine ⟨before, round, ⟨⟨after, split⟩, low, high⟩, ?_⟩
    rcases Nat.lt_or_ge n round.start with late | early
    · exact .inr ⟨late, few late⟩
    · exact .inl ⟨early, high.trans_le (rounds.within before round after split)⟩
  · intro queue ended
    obtain ⟨owned, awake⟩ := invariants_of_reach reached
    have line := inLine.line
    have hand : s.inHand = [] := List.flatMap_eq_nil_iff.mpr fun call member => by rw [ended call member]; rfl
    obtain ⟨list, overflow⟩ := emptied owned awake queue ended
    rwa [hand, overflow, list, List.append_nil, List.append_nil, List.reverse_nil, List.append_nil] at line

end State

/-- Three GETs and a cap of two: the third waits in the overflow and is collected by the next round. -/
def threeReads : List (Event ℕ) :=
  [.push 7, .count 0, .load 0 1, .exchange 0 1 0 true, .submit 0, .push 8, .count 1, .load 1 2, .push 9, .count 2,
    .load 2 3, .take, .drain 3, .sweep 3 3 [], .spill 3 3 [7, 8, 9], .account 3 3 [7, 8], .serve 3 [7, 8], .stepDown 3,
    .lookOverflow 3, .reload 3, .reexchange 3 0 true, .resubmit 3, .take, .drain 4, .sweep 4 3 [9], .account 4 3 [9],
    .serve 4 [9], .stepDown 4, .lookOverflow 4, .lookList 4, .lookDepth 4]

theorem reads_in_order_three : ∃ s, Reach (State.step single) State.initial s ∧
    s.rounds = [⟨3, 3, [7, 8]⟩, ⟨3, 3, [9]⟩] ∧ (∀ round ∈ s.rounds, round.batch ≠ [] ∧ round.batch.length ≤ 2) ∧
      s.batched = s.pushes := by
  obtain ⟨s, reached, rounds, queue, calls⟩ : ∃ s, Reach (State.step single) State.initial s ∧
      s.rounds = [⟨3, 3, [7, 8]⟩, ⟨3, 3, [9]⟩] ∧ s.taskQueue = 0 ∧ s.calls = [.done, .done, .done, .done, .done] :=
    exists_reach threeReads (by decide +kernel)
  obtain ⟨_, capped, _, all⟩ := State.reads_in_order rfl reached
  refine ⟨s, reached, rounds, capped, all queue ?_⟩
  rw [calls]
  simp

/-- The GET 8 is pushed between a round's look at the overflow and its sweep, when one earlier GET is in no batch. The
round in progress takes it along, and the batch of the first round that begins after its push is without it. -/
theorem taken_by_round_in_progress : ∃ s, Reach (State.step single) State.initial s ∧ s.pushes = [7, 8, 9] ∧
    s.behind[1]? = some 1 ∧ s.rounds = [⟨1, 2, [7, 8]⟩, ⟨3, 3, [9]⟩] ∧
      (s.rounds.filter fun r => 1 < r.start) = [⟨3, 3, [9]⟩] :=
  exists_reach [.push 7, .count 0, .load 0 1, .exchange 0 1 0 true, .submit 0, .take, .drain 1, .push 8, .sweep 1 1 [],
    .account 1 1 [7, 8], .serve 1 [7, 8], .push 9, .stepDown 1, .lookOverflow 1, .lookList 1, .reload 1,
    .reexchange 1 0 true, .resubmit 1, .take, .drain 4, .sweep 4 3 [], .account 4 3 [9]] (by decide +kernel)

end FluxKV.Engine.ReadQueue
