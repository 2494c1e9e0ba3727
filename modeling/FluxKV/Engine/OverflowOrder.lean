import FluxKV.Engine.ReadOrder
import FluxKV.ToMathlib.ListOrder

/-! # The overflow with several owners

An owner that has swept more than a batch puts the rest at the end of the overflow, in a second step. Until then, and
until the overflow is drained, an owner that has looked at the overflow before may sweep younger GETs: it answers
them first, or puts its own excess back first. Nothing is overtaken exactly if no owner finds GETs on the list while
there is excess in another's hands or in the overflow. With one owner there never is.
-/

namespace FluxKV.Engine.ReadQueue

open Machine ListOrder

namespace Event

variable {ρ : Type*}

def requests : Event ρ → List ρ
  | push req => [req]
  | _ => []

def sweeps : Event ρ → Bool
  | sweep .. => true
  | _ => false

end Event

namespace Call

variable {ρ : Type*} (cfg : Config)

/-- The GETs that the call will answer. -/
def picked : Call ρ → List ρ
  | drained _ batch | accounting _ batch => batch
  | spilling _ batch => batch.take cfg.gMaxReadBatch
  | _ => []

/-- Those past the cap that it has not put back yet. -/
def excess : Call ρ → List ρ
  | spilling _ batch => batch.drop cfg.gMaxReadBatch
  | _ => []

def spills : Call ρ → ℕ
  | spilling .. => 1
  | _ => 0

/-- There is room after a drain, and there is excess to put back. -/
def Sized : Call ρ → Prop
  | drained _ batch => batch.length < cfg.gMaxReadBatch
  | spilling _ batch => cfg.gMaxReadBatch < batch.length
  | _ => True

theorem bare_of_free {call : Call ρ} (free : call.tokens = 0) :
    call.picked cfg = [] ∧ call.excess cfg = [] ∧ call.spills = 0 ∧ call.Sized cfg := by
  cases call with
  | drained | spilling | accounting => cases free
  | _ => exact ⟨rfl, rfl, rfl, trivial⟩

theorem spills_le_one (call : Call ρ) : call.spills ≤ 1 := by
  cases call with
  | spilling => exact le_rfl
  | _ => exact Nat.zero_le _

theorem excess_eq_nil (call : Call ρ) (none : call.spills = 0) : call.excess cfg = [] := by
  cases call with
  | spilling => cases none
  | _ => rfl

theorem split_collected (start : ℕ) (batch : List ρ) : (collected cfg start batch).Sized cfg ∧
    (collected cfg start batch).picked cfg = batch.take cfg.gMaxReadBatch ∧
    (collected cfg start batch).excess cfg = batch.drop cfg.gMaxReadBatch := by
  unfold collected
  split_ifs with none excess
  · rw [none, List.take_nil, List.drop_nil]
    exact ⟨trivial, rfl, rfl⟩
  · exact ⟨excess, rfl, rfl⟩
  · have fits := Nat.le_of_not_lt excess
    exact ⟨trivial, (List.take_of_length_le fits).symm, (List.drop_eq_nil_of_le fits).symm⟩

/-- A batch within the cap is picked as it is. -/
theorem split_collected_of_le (start : ℕ) {batch : List ρ} (fits : batch.length ≤ cfg.gMaxReadBatch) :
    (collected cfg start batch).picked cfg = batch ∧ (collected cfg start batch).excess cfg = [] ∧
      (collected cfg start batch).spills = 0 := by
  obtain ⟨_, picked, excess⟩ := split_collected cfg start batch
  refine ⟨picked.trans (List.take_of_length_le fits), excess.trans (List.drop_eq_nil_of_le fits), ?_⟩
  rw [collected, if_neg fits.not_gt]
  split <;> rfl

theorem split_drain (start : ℕ) {batch : List ρ} (fits : batch.length ≤ cfg.gMaxReadBatch) :
    (drain cfg start batch).Sized cfg ∧ (drain cfg start batch).picked cfg = batch ∧
      (drain cfg start batch).excess cfg = [] ∧ (drain cfg start batch).spills = 0 := by
  unfold drain
  split
  · next room => exact ⟨room, rfl, rfl, rfl⟩
  · exact ⟨(split_collected cfg start batch).1, split_collected_of_le cfg start fits⟩

end Call

namespace State

variable {ρ : Type*} {cfg : Config} {s t : State ρ} {e : Event ρ} {i : ℕ} {old : Call ρ}

/-- The first GET was pushed before the second. -/
def Before (s : State ρ) (first second : ρ) : Prop := [first, second].Sublist s.pushes

/-- The GETs that are in a batch or picked for one. -/
def picked (cfg : Config) (s : State ρ) : List ρ := s.batched ++ s.calls.flatMap (Call.picked cfg)

/-- The GETs past a cap that are on their way to the overflow. -/
def excess (cfg : Config) (s : State ρ) : List ρ := s.calls.flatMap (Call.excess cfg)

/-- The overflow is in the order of arrival, and no GET in excess is overtaken by one that arrived after it. -/
def NoneOvertaken (cfg : Config) (s : State ρ) : Prop :=
  s.overflow.Pairwise s.Before ∧ ∀ get ∈ s.picked cfg, ∀ left ∈ s.excess cfg ++ s.overflow, s.Before get left

/-- An owner that finds GETs on the list does so while no GET is in excess. -/
def SweepsAlone (cfg : Config) (s : State ρ) (e : Event ρ) : Prop :=
  e.sweeps = true → s.list ≠ [] → s.excess cfg = [] ∧ s.overflow = []

/-- Every GET is a request of its own. -/
def PushesNew (s : State ρ) (e : Event ρ) : Prop := ∀ req ∈ e.requests, req ∉ s.pushes

instance [DecidableEq ρ] (s : State ρ) (e : Event ρ) : Decidable (s.SweepsAlone cfg e) :=
  inferInstanceAs (Decidable (_ → _ → _ ∧ _))

instance [DecidableEq ρ] (s : State ρ) (e : Event ρ) : Decidable (s.PushesNew e) :=
  inferInstanceAs (Decidable (∀ req ∈ _, _))

variable [DecidableEq ρ]

/-- The GETs that are picked come first in the order of arrival, then those in excess, of one call at most or in the
overflow, and then the list. -/
structure Parted (cfg : Config) (s : State ρ) : Prop where
  line : ∃ first, (∀ get, first.count get = (s.picked cfg).count get) ∧
    first ++ s.excess cfg ++ s.overflow ++ s.list.reverse = s.pushes
  clear : s.excess cfg ≠ [] → s.overflow = []
  sized : ∀ call ∈ s.calls, call.Sized cfg
  single : (s.calls.map Call.spills).sum ≤ 1
  distinct : s.pushes.Nodup

theorem Parted.initial : (initial : State ρ).Parted cfg :=
  ⟨⟨[], fun _ => rfl, rfl⟩, fun _ => rfl, by rintro _ ⟨⟩, Nat.zero_le _, .nil⟩

theorem Parted.noneOvertaken (parted : s.Parted cfg) : s.NoneOvertaken cfg := by
  obtain ⟨first, same, line⟩ := parted.line
  rw [List.append_assoc first] at line
  refine ⟨List.pairwise_iff_forall_sublist.mpr fun pair => pair.trans ?_, fun get picked left behind => ?_⟩
  · rw [← line]
    exact ((List.sublist_append_right ..).trans (List.sublist_append_right ..)).trans (List.sublist_append_left ..)
  · have member : get ∈ first := (Counting.mem_iff_of_count_eq (same get)).mpr picked
    rw [Before, ← line]
    exact ((List.singleton_sublist.mpr member).append (List.singleton_sublist.mpr behind)).trans
      (List.sublist_append_left ..)

/-- A call moves on, and the GETs it picks then come next in the order of arrival. -/
private theorem Parted.moves (parted : s.Parted cfg) (here : s.At i old) {new : Call ρ}
    (calls : t.calls = s.calls.set i new) (pushes : t.pushes = s.pushes) (sized : new.Sized cfg)
    (single : (s.calls.map Call.spills).sum + new.spills ≤ 1 + old.spills) (gained : List ρ)
    (picked : ∀ get, t.batched.count get + (new.picked cfg).count get =
      s.batched.count get + (old.picked cfg).count get + gained.count get)
    (line : gained ++ t.excess cfg ++ t.overflow ++ t.list.reverse = s.excess cfg ++ s.overflow ++ s.list.reverse)
    (clear : t.excess cfg ≠ [] → t.overflow = []) : t.Parted cfg := by
  obtain ⟨first, before, whole⟩ := parted.line
  refine ⟨⟨first ++ gained, fun get => ?_, ?_⟩, clear, calls ▸ forall_mem_set sized parted.sized, ?_,
    pushes ▸ parted.distinct⟩
  · have moved := count_flatMap_set (Call.picked cfg) here new get
    have step := picked get
    rw [List.count_append, before, State.picked, State.picked, List.count_append, List.count_append, calls]
    omega
  · rw [pushes, ← whole]
    simpa only [List.append_assoc] using congrArg (first ++ ·) line
  · have moved := sum_map_set Call.spills here new
    rw [calls]
    omega

/-- A call that has nothing in excess picks nothing new. -/
private theorem Parted.keeps (parted : s.Parted cfg) (here : s.At i old) {new : Call ρ}
    (calls : t.calls = s.calls.set i new) (same : (t.list, t.overflow, t.pushes) = (s.list, s.overflow, s.pushes))
    (none : old.excess cfg = []) (bare : new.excess cfg = [] ∧ new.spills = 0) (sized : new.Sized cfg)
    (picked : ∀ get, t.batched.count get + (new.picked cfg).count get =
      s.batched.count get + (old.picked cfg).count get) : t.Parted cfg := by
  simp only [Prod.mk.injEq] at same
  obtain ⟨list, overflow, pushes⟩ := same
  have excess : t.excess cfg = s.excess cfg := by
    rw [State.excess, calls, flatMap_set_of_eq here (bare.1.trans none.symm), State.excess]
  refine parted.moves here calls pushes sized ?_ [] picked ?_ ?_
  · rw [bare.2]
    exact parted.single.trans (Nat.le_add_right ..)
  · rw [excess, overflow, list, List.nil_append]
  · rw [excess, overflow]
    exact parted.clear

/-- A call without a token moves on to where it has none. -/
private theorem Parted.keeps_free (parted : s.Parted cfg) (here : s.At i old) {new : Call ρ}
    (calls : t.calls = s.calls.set i new)
    (same : (t.list, t.overflow, t.pushes) = (s.list, s.overflow, s.pushes)) (rounds : t.rounds = s.rounds)
    (empty : old.tokens = 0) (free : new.tokens = 0) : t.Parted cfg := by
  obtain ⟨picked, none, _, _⟩ := Call.bare_of_free cfg empty
  obtain ⟨picked', none', spills, sized⟩ := Call.bare_of_free cfg free
  exact parted.keeps here calls same none ⟨none', spills⟩ sized fun get => by
    rw [picked, picked', batched, rounds, batched]

/-- A call begins with nothing in hand. -/
private theorem Parted.begins (parted : s.Parted cfg) {new : Call ρ} (calls : t.calls = s.calls ++ [new])
    (bare : new.picked cfg = [] ∧ new.excess cfg = [] ∧ new.spills = 0 ∧ new.Sized cfg) {pushed : List ρ}
    (same : (t.list.reverse, t.overflow, t.pushes, t.rounds) =
      (s.list.reverse ++ pushed, s.overflow, s.pushes ++ pushed, s.rounds))
    (distinct : (s.pushes ++ pushed).Nodup) : t.Parted cfg := by
  simp only [Prod.mk.injEq] at same
  obtain ⟨list, overflow, pushes, rounds⟩ := same
  obtain ⟨picked, none, spills, sized⟩ := bare
  obtain ⟨first, before, line⟩ := parted.line
  have excess : t.excess cfg = s.excess cfg := by
    rw [State.excess, calls, List.flatMap_append, List.flatMap_singleton, none, List.append_nil, State.excess]
  refine ⟨⟨first, fun get => ?_, ?_⟩, by rw [excess, overflow]; exact parted.clear, ?_, ?_, pushes ▸ distinct⟩
  · rw [before, State.picked, State.picked, batched, batched, rounds, calls, List.flatMap_append, List.flatMap_singleton,
      picked, List.append_nil]
  · rw [excess, overflow, list, pushes, ← List.append_assoc, line]
  · rw [calls]
    exact List.forall_mem_append.mpr ⟨parted.sized, List.forall_mem_singleton.mpr sized⟩
  · rw [calls, List.map_append, List.sum_append, List.map_singleton, List.sum_singleton, spills]
    exact parted.single

/-- While another owner has excess the overflow is empty, and the drain takes nothing. -/
private theorem Parted.drain (parted : s.Parted cfg) (here : s.At i .holding) : (s.next cfg (.drain i)).Parted cfg := by
  have fits : (s.overflow.take cfg.gMaxReadBatch).length ≤ cfg.gMaxReadBatch := List.length_take_le ..
  obtain ⟨sized, picked, none, spills⟩ := Call.split_drain cfg s.pushes.length fits
  have excess : (s.next cfg (.drain i)).excess cfg = s.excess cfg := flatMap_set_of_eq here none
  refine parted.moves here rfl rfl sized ?_ (s.overflow.take cfg.gMaxReadBatch) (fun get => ?_) ?_ fun some => ?_
  · rw [spills]
    exact parted.single
  · rw [picked]
    rfl
  · rw [excess]
    show _ ++ s.overflow.drop cfg.gMaxReadBatch ++ s.list.reverse = _
    by_cases empty : s.excess cfg = []
    · rw [empty, List.append_nil, List.take_append_drop, List.nil_append]
    · rw [parted.clear empty, List.take_nil, List.drop_nil, List.nil_append]
  · rw [excess] at some
    show s.overflow.drop _ = []
    rw [parted.clear some, List.drop_nil]

/-- Where nobody has excess, nobody is about to put any back. -/
private theorem Parted.spills_eq_zero (parted : s.Parted cfg) (none : s.excess cfg = []) :
    (s.calls.map Call.spills).sum = 0 := by
  refine List.sum_eq_zero fun n member => ?_
  obtain ⟨call, inside, rfl⟩ := List.mem_map.mp member
  cases call with
  | spilling start batch =>
    have excess := List.flatMap_eq_nil_iff.mp none _ inside
    have sized : cfg.gMaxReadBatch < batch.length := parted.sized _ inside
    exact absurd (List.drop_eq_nil_iff.mp excess) sized.not_ge
  | _ => rfl

/-- What an owner picks from the list when it sweeps alone is its front, and the rest is all the excess there is. -/
private theorem Parted.sweep (parted : s.Parted cfg) {start : ℕ} {batch : List ρ} (here : s.At i (.drained start batch))
    (none : s.excess cfg = []) (clear : s.overflow = []) : (s.next cfg (.sweep i start batch)).Parted cfg := by
  obtain ⟨sized, picked, excess⟩ := Call.split_collected cfg start (batch ++ s.list.reverse)
  have room : batch.length < cfg.gMaxReadBatch := parted.sized _ (List.mem_of_getElem? here)
  rw [List.take_append, List.take_of_length_le room.le] at picked
  rw [List.drop_append, List.drop_eq_nil_of_le room.le, List.nil_append] at excess
  have total : (s.next cfg (.sweep i start batch)).excess cfg = s.list.reverse.drop (cfg.gMaxReadBatch - batch.length) :=
    (flatMap_set_of_nil here none _).trans excess
  refine parted.moves here rfl rfl sized ?_ (s.list.reverse.take (cfg.gMaxReadBatch - batch.length)) (fun get => ?_) ?_
    fun _ => clear
  · rw [parted.spills_eq_zero none, Nat.zero_add]
    exact (Call.spills_le_one _).trans (Nat.le_add_right ..)
  · rw [picked, List.count_append, ← Nat.add_assoc]
    rfl
  · rw [total, List.take_append_drop, none, clear]
    show _ ++ s.overflow ++ [] = _
    rw [clear, List.append_nil, List.append_nil, List.nil_append, List.nil_append]

private theorem Parted.spill (parted : s.Parted cfg) {start : ℕ} {batch : List ρ}
    (here : s.At i (.spilling start batch)) : (s.next cfg (.spill i start batch)).Parted cfg := by
  have alone := fun new => flatMap_set_of_alone (Call.excess_eq_nil cfg) here rfl parted.single new
  have total : s.excess cfg = batch.drop cfg.gMaxReadBatch := (flatMap_set_of_eq here rfl).symm.trans (alone _)
  have none : (s.next cfg (.spill i start batch)).excess cfg = [] := alone _
  have excess : cfg.gMaxReadBatch < batch.length := parted.sized _ (List.mem_of_getElem? here)
  have clear : s.overflow = [] := parted.clear fun empty =>
    excess.not_ge (List.drop_eq_nil_iff.mp (total.symm.trans empty))
  refine parted.moves here rfl rfl trivial (parted.single.trans (Nat.le_add_right ..)) [] (fun _ => rfl) ?_
    fun some => absurd none some
  rw [none, total, clear]
  show (s.overflow ++ batch.drop cfg.gMaxReadBatch) ++ s.list.reverse = _
  rw [clear, List.nil_append, List.append_nil]

theorem Parted.next (parted : s.Parted cfg) (new : s.PushesNew e) (alone : s.SweepsAlone cfg e)
    (able : s.enabled e) : (s.next cfg e).Parted cfg := by
  cases e with
  | push req =>
    have apart := List.disjoint_singleton.mpr (new req List.mem_cons_self)
    exact parted.begins rfl ⟨rfl, rfl, rfl, trivial⟩ (by rw [State.next, List.reverse_cons])
      (parted.distinct.append (List.nodup_singleton req) apart)
  | take =>
    have same : s.pushes ++ [] = s.pushes := List.append_nil _
    exact parted.begins rfl ⟨rfl, rfl, rfl, trivial⟩ (by rw [State.next, same, List.append_nil])
      (same.symm ▸ parted.distinct)
  | drain i => exact parted.drain (of_decide_eq_true able)
  | sweep i start batch =>
    have here : s.At i (.drained start batch) := of_decide_eq_true able
    by_cases empty : s.list = []
    · have room : batch.length < cfg.gMaxReadBatch := parted.sized _ (List.mem_of_getElem? here)
      obtain ⟨picked, bare⟩ := Call.split_collected_of_le cfg start room.le
      have calls : (s.next cfg (.sweep i start batch)).calls = s.calls.set i (.collected cfg start batch) := by
        rw [State.next, empty, List.reverse_nil, List.append_nil]
      refine parted.keeps here calls ?_ rfl bare (Call.split_collected ..).1 fun get => by rw [picked]; rfl
      rw [State.next, empty]
    · exact parted.sweep here (alone rfl empty).1 (alone rfl empty).2
  | spill i start batch => exact parted.spill (of_decide_eq_true able)
  | account i start batch =>
    refine parted.keeps (of_decide_eq_true able) rfl rfl rfl ⟨rfl, rfl⟩ trivial fun get => ?_
    show ((s.rounds ++ [_]).flatMap Round.batch).count get + 0 = _
    rw [List.flatMap_append, List.flatMap_singleton, List.count_append, Nat.add_zero]
    rfl
  | load i depth => exact parted.keeps_free (of_decide_eq_true able) rfl rfl rfl rfl (Call.tokens_enqueue ..)
  | reload i => exact parted.keeps_free (of_decide_eq_true able) rfl rfl rfl rfl (Call.tokens_release _)
  | exchange i depth owners ok =>
    obtain ⟨here, _⟩ := of_decide_eq_true able
    cases ok with
    | false => exact parted.keeps_free here rfl rfl rfl rfl (Call.tokens_enqueue ..)
    | true => exact parted.keeps here rfl rfl rfl ⟨rfl, rfl⟩ trivial fun _ => rfl
  | reexchange i owners ok =>
    obtain ⟨here, _⟩ := of_decide_eq_true able
    cases ok with
    | false => exact parted.keeps_free here rfl rfl rfl rfl (Call.tokens_release _)
    | true => exact parted.keeps here rfl rfl rfl ⟨rfl, rfl⟩ trivial fun _ => rfl
  | lookOverflow i | lookList i | lookDepth i =>
    refine parted.keeps_free (of_decide_eq_true able) rfl rfl rfl rfl ?_
    split <;> rfl
  | count i | submit i | serve i batch | stepDown i | resubmit i =>
    exact parted.keeps (of_decide_eq_true able) rfl rfl rfl ⟨rfl, rfl⟩ trivial fun _ => rfl

/-- An owner that sweeps past GETs in excess picks one that arrived after them. -/
theorem Parted.exposed (parted : s.Parted cfg) (passed : ¬ s.SweepsAlone cfg e) (able : s.enabled e) :
    ¬ (s.next cfg e).NoneOvertaken cfg := by
  cases e with
  | sweep i start batch =>
    have here : s.At i (.drained start batch) := of_decide_eq_true able
    have listed : s.list ≠ [] := fun empty => passed fun _ some => absurd empty some
    obtain ⟨left, behind⟩ : ∃ left, left ∈ s.excess cfg ++ s.overflow :=
      List.exists_mem_of_ne_nil _ fun none => passed fun _ _ => List.append_eq_nil_iff.mp none
    have still : left ∈ (s.next cfg (.sweep i start batch)).excess cfg ++ s.overflow := by
      refine List.mem_append.mpr ((List.mem_append.mp behind).imp_left fun inHand => List.mem_flatMap.mpr ?_)
      exact exists_mem_set (P := (left ∈ Call.excess cfg ·)) here List.not_mem_nil _ (List.mem_flatMap.mp inHand)
    obtain ⟨oldest, rest, shape⟩ := List.exists_cons_of_ne_nil (mt List.reverse_eq_nil_iff.mp listed)
    have room : batch.length < cfg.gMaxReadBatch := parted.sized _ (List.mem_of_getElem? here)
    have picked : oldest ∈ (s.next cfg (.sweep i start batch)).picked cfg := by
      refine List.mem_append_right _ (List.mem_flatMap.mpr ⟨_, mem_set_self here _, ?_⟩)
      obtain ⟨n, more⟩ := Nat.exists_eq_add_of_lt room
      rw [(Call.split_collected ..).2.1, shape, List.take_append, more, Nat.add_assoc, Nat.add_sub_cancel_left]
      exact List.mem_append_right _ List.mem_cons_self
    intro order
    obtain ⟨first, _, line⟩ := parted.line
    rw [List.append_assoc first] at line
    have arrived : [left, oldest].Sublist s.pushes := by
      rw [← line, shape]
      have waits : left ∈ first ++ (s.excess cfg ++ s.overflow) := List.mem_append_right _ behind
      exact (List.singleton_sublist.mpr waits).append (List.singleton_sublist.mpr List.mem_cons_self)
    exact not_pair_swap parted.distinct arrived (order.2 oldest picked left still)
  | _ => exact (passed fun sweeps => by cases sweeps).elim

/-- With one owner a round finds the overflow drained and nobody else collecting. -/
theorem InLine.sweepsAlone (inLine : s.InLine cfg) (one : cfg.gMaxReadOwners = 1) (owned : s.Owned cfg)
    (able : s.enabled e) : s.SweepsAlone cfg e := by
  cases e with
  | sweep i start batch =>
    have alone := owned.alone one (of_decide_eq_true able) rfl
    have bare : ∀ call : Call ρ, call.tokens = 0 → call.excess cfg = [] := fun _ free => (Call.bare_of_free cfg free).2.1
    refine fun _ _ => ⟨?_, (inLine.collecting _ (List.mem_of_getElem? alone.here)).2.1⟩
    exact (flatMap_set_of_eq alone.here rfl).symm.trans
      (flatMap_set_of_alone bare alone.here alone.token alone.single (.drained start batch))
  | _ => exact fun sweeps => by cases sweeps

/-- In a run in which every GET is a request of its own, the overflow is always in the order of arrival and no GET in
excess is ever overtaken, exactly if owners find GETs on the list only while there is no excess in another's hands or
in the overflow; with one owner every run is like that. -/
theorem none_overtaken_iff_sweeps_alone {es : List (Event ρ)}
    (run : exec (restrict PushesNew (step cfg)) initial es = some t) :
    (Along (restrict PushesNew (step cfg)) (NoneOvertaken cfg) initial es ↔
        exec (restrict (SweepsAlone cfg) (restrict PushesNew (step cfg))) initial es = some t) ∧
      (cfg.gMaxReadOwners = 1 → Along (restrict PushesNew (step cfg)) (NoneOvertaken cfg) initial es) := by
  refine ⟨along_iff_restrict Parted.initial ?_ Parted.noneOvertaken ?_ run, fun one => ?_⟩
  · intro s e t parted alone taken
    obtain ⟨new, taken⟩ := restrict_eq_some.mp taken
    obtain ⟨able, rfl⟩ := step_eq_some.mp taken
    exact parted.next new alone able
  · intro s e t parted passed taken
    obtain ⟨able, rfl⟩ := step_eq_some.mp (restrict_eq_some.mp taken).2
    exact parted.exposed passed able
  · refine Along.of_invariant (I := fun s => s.Parted cfg ∧ s.Owned cfg ∧ s.InLine cfg) ⟨.initial, .initial, .initial⟩ ?_
      (fun inv => inv.1.noneOvertaken) es
    rintro s e t ⟨parted, owned, inLine⟩ taken
    obtain ⟨new, taken⟩ := restrict_eq_some.mp taken
    obtain ⟨able, rfl⟩ := step_eq_some.mp taken
    exact ⟨parted.next new (inLine.sweepsAlone one owned able) able, owned.next able, inLine.next one owned able⟩

end State

/-- Two owners, and batches of one. -/
def pair : Config := ⟨2, 1, Nat.two_pos, Nat.one_pos⟩

/-- Two owners with the GETs 0 and 1 on the list. -/
def pairStart : List (Event ℕ) :=
  [.push 0, .count 0, .load 0 1, .exchange 0 1 0 true, .submit 0, .push 1, .count 1, .load 1 2, .exchange 1 2 1 true,
    .submit 1, .take, .take]

/-- The first owner has put its excess back before the second looks at the overflow. -/
theorem none_overtaken_pair : ∃ t es, exec (restrict State.PushesNew (State.step pair)) State.initial es = some t ∧
    t.batched = [0, 1] ∧ Along (restrict State.PushesNew (State.step pair)) (State.NoneOvertaken pair) State.initial es := by
  let es := pairStart ++ [.drain 2, .sweep 2 2 [], .spill 2 2 [0, 1], .drain 3, .account 2 2 [0], .account 3 2 [1]]
  obtain ⟨t, run, batched⟩ : ∃ t, exec (restrict (State.SweepsAlone pair) (restrict State.PushesNew (State.step pair)))
      State.initial es = some t ∧ t.batched = [0, 1] := exists_exec (by decide +kernel)
  have new := exec_of_restrict run
  exact ⟨t, es, new, batched, (State.none_overtaken_iff_sweeps_alone new).1.mpr run⟩

/-- The first owner sweeps the GETs 0 and 1, the second the GETs 2 and 3, and the second is the first to put its
excess back: the GET 3 stands before the GET 1 in the overflow. Had it had no excess, it would have answered the GET 2
before the GET 1. -/
theorem crossed_spills_out_of_order : ∃ s, Reach (restrict State.PushesNew (State.step pair)) State.initial s ∧
    s.pushes = [0, 1, 2, 3] ∧ s.overflow = [3, 1] ∧ ¬ s.overflow.Pairwise s.Before := by
  obtain ⟨s, reached, pushes, overflow⟩ : ∃ s, Reach (restrict State.PushesNew (State.step pair)) State.initial s ∧
      s.pushes = [0, 1, 2, 3] ∧ s.overflow = [3, 1] :=
    exists_reach (pairStart ++ [.drain 2, .sweep 2 2 [], .push 2, .push 3, .drain 3, .sweep 3 4 [], .spill 3 4 [2, 3],
      .spill 2 2 [0, 1]]) (by decide +kernel)
  refine ⟨s, reached, pushes, overflow, fun order => ?_⟩
  have before : [3, 1].Sublist s.pushes := by
    rw [overflow] at order
    exact List.rel_of_pairwise_cons order List.mem_cons_self
  rw [pushes] at before
  exact absurd before (by decide)

end FluxKV.Engine.ReadQueue
