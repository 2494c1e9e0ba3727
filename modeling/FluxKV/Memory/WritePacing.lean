import FluxKV.Machine.Calls
import FluxKV.Machine.Run
import Mathlib.Data.Rat.Floor

/-! # Pacing SETs to the disk budget

When disk use nears its budget, the space governor limits the rate of SETs: every SET takes a token, and a hundred times
a second the governor adds as many as its rate allows. A connection that gets none leaves its SET unread and stops
reading until it sees one. Takes that fail leave a debt, which later tokens pay first. The model has the connections
and the governor side by side, one event for each access to `writeLimited_` or `writeTokens_`. The governor's
floating-point numbers are exact here.
-/

namespace FluxKV.Memory.WritePacing

open Machine

/-- The options the governor reads: `diskLimitBytes` and `diskPaceAt`. -/
structure Config where
  budget : ℚ
  diskPaceAt : ℚ
deriving DecidableEq, Repr

namespace Config

variable (cfg : Config)

def target : ℚ := (cfg.diskPaceAt + 15 / 1000) * cfg.budget

def engage : ℚ := cfg.diskPaceAt * cfg.budget

def release : ℚ := (cfg.diskPaceAt - 5 / 100) * cfg.budget

def ceiling : ℚ := min (99 / 100) (cfg.diskPaceAt + 35 / 1000) * cfg.budget

end Config

def kMinRate : ℚ := 30000
def kBytesPerSet : ℚ := 1100
def kApproachSec : ℚ := 60
def kGain : ℚ := 1 / 10

/-- The rate after a check, where zero is no limit: `ema` is the smoothed disk use, `slope` what it grew by. -/
def paced (cfg : Config) (rate ema slope disk setRate : ℚ) : ℚ :=
  if rate = 0 then
    if cfg.engage < ema ∨ cfg.engage < ema + 10 * slope then
      max kMinRate (min (max 0 (cfg.target - ema) / kApproachSec / kBytesPerSet) (max kMinRate setRate))
    else 0
  else
    let want := (cfg.target - ema) / kApproachSec
    let rate := max kMinRate (rate + kGain * (want - slope) / kBytesPerSet)
    let rate := if cfg.ceiling < disk then kMinRate else rate
    let rate := min rate (max kMinRate (3 / 2 * setRate))
    if ema < cfg.release ∧ setRate < rate * (3 / 4) then 0 else rate

/-- Where a connection stands: it parses, is in `TakeWriteToken` or `HasWriteTokens` having seen the limit on, was
refused a token, or is closed. -/
inductive Conn where
  | parsing
  | taking
  | asking
  | held
  | closed
deriving DecidableEq, Repr

/-- The connection was refused a token and has not seen one since. -/
def Conn.unpaid : Conn → ℕ
  | held | asking => 1
  | parsing | taking | closed => 0

/-- Where the governor stands: between two ticks, in the loop of `RefillWriteTokens` before it and with the count it has
seen, before it turns the limit on, and at its end. `limits` says that the limit goes on after the refill. -/
inductive Governor where
  | resting
  | refilling (n cap : ℤ) (limits : Bool)
  | exchanging (n cap seen : ℤ) (limits : Bool)
  | limiting
  | stopped
deriving DecidableEq, Repr

/-- The last fields record what happened: the SETs let through, the tokens added, the bank of the last refill, and the
refused connections that went on without having seen a token. -/
structure State where
  writeLimited : Bool
  writeTokens : ℤ
  conns : List Conn
  governor : Governor
  rate : ℚ
  ema : ℚ
  admitted : ℕ
  added : ℤ
  bank : ℤ
  strays : ℕ
deriving Repr

inductive Event where
  | accept
  /-- `TakeWriteToken` loads the flag, and takes a token. -/
  | load (i : ℕ)
  | take (i : ℕ)
  /-- `HasWriteTokens` loads the flag, and looks at the tokens. The connection goes on if the queue has room too. -/
  | ask (i : ℕ) (room : Bool)
  | look (i : ℕ) (room : Bool)
  /-- A refused connection has moved to another loop and parses again. -/
  | attach (i : ℕ)
  | close (i : ℕ) (conn : Conn)
  | tick
  | loadTokens
  | exchange (seen : ℤ)
  | exchangeFails
  | limit
  | check (disk setRate : ℚ)
  | stop
deriving Repr

namespace State

def start (used : ℚ) : State := ⟨false, 0, [], .resting, 0, used, 0, 0, 0, 0⟩

def enabled (s : State) : Event → Bool
  | .accept => true
  | .load i => s.conns[i]? = some .parsing
  | .take i => s.conns[i]? = some .taking
  | .ask i _ | .attach i => s.conns[i]? = some .held
  | .look i _ => s.conns[i]? = some .asking
  | .close i conn => s.conns[i]? = some conn ∧ (conn = .parsing ∨ conn = .held)
  | .tick => s.governor = .resting ∧ 0 < s.rate
  | .loadTokens => match s.governor with
    | .refilling .. => true
    | _ => false
  | .exchange seen => match s.governor with
    | .exchanging _ _ expected _ => seen = expected ∧ s.writeTokens = seen
    | _ => false
  | .exchangeFails => match s.governor with
    | .exchanging .. => true
    | _ => false
  | .limit => s.governor = .limiting
  | .check .. | .stop => s.governor = .resting

def next (cfg : Config) (s : State) : Event → State
  | .accept => { s with conns := s.conns ++ [.parsing] }
  | .load i =>
    if s.writeLimited then { s with conns := s.conns.set i .taking } else { s with admitted := s.admitted + 1 }
  | .take i =>
    let taken := { s with writeTokens := s.writeTokens - 1 }
    if 0 < s.writeTokens then { taken with conns := s.conns.set i .parsing, admitted := s.admitted + 1 }
    else { taken with conns := s.conns.set i .held }
  | .ask i room =>
    if s.writeLimited then { s with conns := s.conns.set i .asking }
    else if room then { s with conns := s.conns.set i .parsing, strays := s.strays + 1 }
    else s
  | .look i room => { s with conns := s.conns.set i (if 0 < s.writeTokens ∧ room then .parsing else .held) }
  | .attach i => { s with conns := s.conns.set i .parsing, strays := s.strays + 1 }
  | .close i conn => { s with conns := s.conns.set i .closed, strays := s.strays + conn.unpaid }
  | .tick => { s with governor := .refilling ⌊s.rate / 100⌋ ⌊s.rate / 20⌋ false }
  | .loadTokens => match s.governor with
    | .refilling n cap limits => { s with governor := .exchanging n cap s.writeTokens limits }
    | _ => s
  | .exchange seen => match s.governor with
    | .exchanging n cap _ limits =>
      { s with
        writeTokens := min (seen + n) cap
        governor := if limits then .limiting else .resting
        added := s.added + n
        bank := cap }
    | _ => s
  | .exchangeFails => match s.governor with
    | .exchanging n cap _ limits => { s with governor := .exchanging n cap s.writeTokens limits }
    | _ => s
  | .limit => { s with writeLimited := true, governor := .resting }
  | .check disk setRate =>
    let ema := s.ema + 3 / 10 * (disk - s.ema)
    let rate := paced cfg s.rate ema (ema - s.ema) disk setRate
    let checked := { s with ema, rate }
    if s.rate = 0 then if rate = 0 then checked else { checked with governor := .refilling 0 0 true }
    else if rate = 0 then { checked with writeLimited := false } else checked
  | .stop => { s with writeLimited := false, governor := .stopped }

def step (cfg : Config) (s : State) (e : Event) : Option State := if s.enabled e then some (s.next cfg e) else none

variable {cfg : Config} {s t : State} {e : Event} {i : ℕ} {old new : Conn}

theorem step_eq_some : s.step cfg e = some t ↔ s.enabled e ∧ s.next cfg e = t :=
  ite_some_eq_some

theorem of_exchange {seen : ℤ} (able : s.enabled (.exchange seen)) :
    ∃ n cap limits, s.governor = .exchanging n cap seen limits ∧ s.writeTokens = seen := by
  simp only [enabled] at able
  split at able
  · next n cap expected limits at_work =>
    obtain ⟨rfl, same⟩ := of_decide_eq_true able
    exact ⟨n, cap, limits, at_work, same⟩
  · cases able

/-- The connections that were refused a token and have not seen one since. -/
def unpaid (s : State) : ℕ := (s.conns.map Conn.unpaid).sum

theorem unpaid_set (here : s.conns[i]? = some old) (new : Conn) :
    ((s.conns.set i new).map Conn.unpaid).sum + old.unpaid = s.unpaid + new.unpaid :=
  sum_map_set Conn.unpaid here new

end State

/-- What the governor is about to add, and how many it leaves at most. -/
def Governor.refill : Governor → Option (ℤ × ℤ)
  | refilling n cap _ | exchanging n cap _ _ => some (n, cap)
  | resting | limiting | stopped => none

/-- The governor is turning the limit on. -/
def Governor.engages : Governor → Bool
  | refilling _ _ limits | exchanging _ _ _ limits => limits
  | limiting => true
  | resting | stopped => false

theorem kMinRate_le_paced (cfg : Config) (rate ema slope disk setRate : ℚ) :
    paced cfg rate ema slope disk setRate = 0 ∨ kMinRate ≤ paced cfg rate ema slope disk setRate := by
  unfold paced
  split
  · split
    · exact .inr (le_max_left _ _)
    · exact .inl rfl
  · dsimp only
    split
    · split
      · exact .inl rfl
      · exact .inr (le_min le_rfl (le_max_left _ _))
    · split
      · exact .inl rfl
      · exact .inr (le_min (le_max_left _ _) (le_max_left _ _))

namespace State

/-- Tokens are short by at most what the refused connections have not paid and those that went on without paying, and
at most the bank of the last refill is left. -/
structure Paced (s : State) : Prop where
  rate : s.rate = 0 ∨ kMinRate ≤ s.rate
  refill : ∀ n cap, s.governor.refill = some (n, cap) → 0 ≤ n ∧ 0 ≤ cap
  engaged : s.writeLimited = true ∨ s.governor.engages = true → s.rate ≠ 0
  debt : 0 ≤ s.writeTokens + s.unpaid + s.strays
  banked : s.writeTokens ≤ s.bank
  bank : 0 ≤ s.bank

/-- What was let through and what can be taken at once, beyond the tokens that were added. -/
def spent (s : State) : ℤ := s.admitted + max s.writeTokens 0 - s.added

variable {cfg : Config} {s t : State} {e : Event} {i : ℕ}

theorem paced_start (used : ℚ) : (start used).Paced where
  rate := .inl rfl
  refill _ _ at_work := nomatch at_work
  engaged on := by cases on <;> contradiction
  debt := le_refl _
  banked := le_refl _
  bank := le_refl _

/-- A connection's step changes tokens and refused connections only. -/
theorem Paced.frame (before : s.Paced) (limited : t.writeLimited = s.writeLimited) (rate : t.rate = s.rate)
    (governor : t.governor = s.governor) (bank : t.bank = s.bank) (tokens : t.writeTokens ≤ s.writeTokens)
    (debt : s.writeTokens + s.unpaid + s.strays ≤ t.writeTokens + t.unpaid + t.strays ∨ 0 ≤ t.writeTokens) :
    t.Paced where
  rate := by
    rw [rate]
    exact before.rate
  refill n cap at_work := before.refill n cap (governor ▸ at_work)
  engaged := by
    rw [limited, governor, rate]
    exact before.engaged
  debt := by
    have := before.debt
    omega
  banked := by
    have := before.banked
    omega
  bank := by
    rw [bank]
    exact before.bank

/-- One connection moves on: what it owed it still owes, or left as a stray, or the tokens are that many fewer. -/
theorem Paced.moves {old new : Conn} (before : s.Paced) (here : s.conns[i]? = some old)
    (conns : t.conns = s.conns.set i new) (limited : t.writeLimited = s.writeLimited) (rate : t.rate = s.rate)
    (governor : t.governor = s.governor) (bank : t.bank = s.bank) (tokens : t.writeTokens ≤ s.writeTokens)
    (owed : s.writeTokens + old.unpaid + s.strays ≤ t.writeTokens + new.unpaid + t.strays) : t.Paced := by
  refine before.frame limited rate governor bank tokens (.inl ?_)
  have counted := unpaid_set here new
  rw [← conns, ← unpaid] at counted
  omega

/-- A step of the governor outside a refill leaves the tokens alone. -/
theorem Paced.govern (before : s.Paced) (rate : t.rate = 0 ∨ kMinRate ≤ t.rate)
    (refill : ∀ n cap, t.governor.refill = some (n, cap) → 0 ≤ n ∧ 0 ≤ cap)
    (engaged : t.writeLimited = true ∨ t.governor.engages = true → t.rate ≠ 0) (tokens : t.writeTokens = s.writeTokens)
    (conns : t.conns = s.conns) (strays : t.strays = s.strays) (bank : t.bank = s.bank) : t.Paced where
  rate := rate
  refill := refill
  engaged := engaged
  debt := by
    rw [tokens, strays, unpaid, conns]
    exact before.debt
  banked := by
    rw [tokens, bank]
    exact before.banked
  bank := by
    rw [bank]
    exact before.bank

theorem Paced.step (before : s.Paced) (taken : s.step cfg e = some t) : t.Paced := by
  obtain ⟨able, rfl⟩ := step_eq_some.mp taken
  cases e with
  | accept =>
    refine before.frame rfl rfl rfl rfl le_rfl (.inl ?_)
    simp only [next, unpaid, List.map_append, List.sum_append, List.map_cons, List.map_nil, List.sum_cons,
      List.sum_nil, Conn.unpaid, Nat.add_zero, le_refl]
  | load i =>
    simp only [next]
    split
    · exact before.moves (of_decide_eq_true able) rfl rfl rfl rfl rfl le_rfl le_rfl
    · exact before.frame rfl rfl rfl rfl le_rfl (.inl le_rfl)
  | take i =>
    simp only [next]
    split
    · next some_left => exact before.frame rfl rfl rfl rfl (by dsimp only; omega) (.inr (by dsimp only; omega))
    · -- the refused take leaves a debt of one, and one more connection that has not paid
      refine before.moves (of_decide_eq_true able) rfl rfl rfl rfl rfl (by dsimp only; omega) ?_
      dsimp only [Conn.unpaid]
      omega
  | ask i room =>
    have here := of_decide_eq_true able
    simp only [next]
    split
    · exact before.moves here rfl rfl rfl rfl rfl le_rfl le_rfl
    · split
      · refine before.moves here rfl rfl rfl rfl rfl le_rfl ?_
        dsimp only [Conn.unpaid]
        omega
      · exact before
  | look i room =>
    simp only [next]
    split
    · next seen => exact before.frame rfl rfl rfl rfl le_rfl (.inr seen.1.le)
    · exact before.moves (of_decide_eq_true able) rfl rfl rfl rfl rfl le_rfl le_rfl
  | attach i =>
    refine before.moves (of_decide_eq_true able) rfl rfl rfl rfl rfl le_rfl ?_
    dsimp only [next, Conn.unpaid]
    omega
  | close i conn =>
    refine before.moves (of_decide_eq_true able).1 rfl rfl rfl rfl rfl le_rfl ?_
    dsimp only [next, Conn.unpaid]
    omega
  | tick =>
    have limiting := of_decide_eq_true able
    refine before.govern before.rate (fun n cap at_work => ?_) (fun _ => limiting.2.ne') rfl rfl rfl rfl
    obtain ⟨rfl, rfl⟩ := Prod.mk.inj (Option.some.inj at_work)
    exact ⟨Int.floor_nonneg.mpr (div_nonneg limiting.2.le (by norm_num)),
      Int.floor_nonneg.mpr (div_nonneg limiting.2.le (by norm_num))⟩
  | loadTokens =>
    simp only [next]
    split
    · next n cap limits at_work =>
      have held := before.engaged
      have adds := before.refill
      rw [at_work] at held adds
      exact before.govern before.rate adds held rfl rfl rfl rfl
    · exact before
  | exchange seen =>
    obtain ⟨n, cap, limits, at_work, same⟩ := of_exchange able
    obtain ⟨adds, caps⟩ := before.refill n cap (by rw [at_work]; rfl)
    have held := before.engaged
    rw [at_work] at held
    simp only [next, at_work]
    refine ⟨before.rate, fun n' cap' none_left => ?_, fun on => held ?_, ?_, min_le_right _ _, caps⟩
    · cases limits <;> cases none_left
    · cases limits with
      | false => exact .inl (on.resolve_right Bool.false_ne_true)
      | true => exact .inr rfl
    · have owed := before.debt
      dsimp only [unpaid] at owed ⊢
      omega
  | exchangeFails =>
    simp only [next]
    split
    · next n cap expected limits at_work =>
      have held := before.engaged
      have adds := before.refill
      rw [at_work] at held adds
      exact before.govern before.rate adds held rfl rfl rfl rfl
    · exact before
  | limit =>
    have limiting : s.governor = .limiting := of_decide_eq_true able
    have engages : s.rate ≠ 0 := before.engaged (.inr (by rw [limiting]; rfl))
    exact before.govern before.rate (fun _ _ none_left => nomatch none_left) (fun _ => engages) rfl rfl rfl rfl
  | check disk setRate =>
    have bounded := kMinRate_le_paced cfg s.rate (s.ema + 3 / 10 * (disk - s.ema))
      (s.ema + 3 / 10 * (disk - s.ema) - s.ema) disk setRate
    have resting : s.governor = .resting := of_decide_eq_true able
    have off : s.governor.engages = false := by rw [resting]; rfl
    simp only [next]
    split
    · next unlimited =>
      split
      · refine before.govern bounded before.refill (fun on => absurd unlimited (before.engaged on)) rfl rfl rfl rfl
      · next limited =>
        refine before.govern bounded (fun n cap at_work => ?_) (fun _ => limited) rfl rfl rfl rfl
        obtain ⟨rfl, rfl⟩ := Prod.mk.inj (Option.some.inj at_work)
        exact ⟨le_rfl, le_rfl⟩
    · split
      · refine before.govern bounded before.refill (fun on => ?_) rfl rfl rfl rfl
        rcases on with on | on
        · cases on
        · rw [off] at on
          cases on
      · next limited => exact before.govern bounded before.refill (fun _ => limited) rfl rfl rfl rfl
  | stop =>
    refine before.govern before.rate (fun _ _ none_left => nomatch none_left) (fun on => ?_) rfl rfl rfl rfl
    cases on <;> contradiction

/-- The limit is on after the event. -/
def StaysOn (cfg : Config) (s : State) (e : Event) : Prop := (s.next cfg e).writeLimited = true

instance (s : State) (e : Event) : Decidable (StaysOn cfg s e) := by
  unfold StaysOn
  infer_instance

/-- While the limit is on, each SET let through takes a token. -/
theorem spent_next (before : s.Paced) (on : s.writeLimited = true) (able : s.enabled e) :
    (s.next cfg e).spent ≤ s.spent := by
  cases e with
  | load | ask =>
    simp only [next, on, if_true]
    exact le_rfl
  | take i =>
    simp only [next]
    split
    · dsimp only [spent]
      omega
    · dsimp only [spent]
      omega
  | exchange seen =>
    obtain ⟨n, cap, limits, at_work, same⟩ := of_exchange able
    obtain ⟨adds, caps⟩ := before.refill n cap (by rw [at_work]; rfl)
    simp only [next, at_work]
    dsimp only [spent]
    omega
  | loadTokens | exchangeFails =>
    simp only [next]
    split
    · exact le_rfl
    · exact le_rfl
  | check disk setRate =>
    simp only [next]
    split <;> split <;> exact le_rfl
  | accept | look | attach | close | tick | limit | stop => exact le_rfl

/-- A gigabyte of budget. -/
def gigabyte : Config := ⟨1000000000, 95 / 100⟩

/-- The disk is above the line: a SET still goes through, and the limit goes on. -/
def engaging : List Event := [.accept, .load 0, .check 960000000 100000, .loadTokens, .exchange 0, .limit]

/-- The next SET is refused until a refill has paid for the refusal. -/
def waiting : List Event :=
  [.load 0, .take 0, .ask 0 true, .look 0 true, .tick, .loadTokens, .exchangeFails, .exchange (-1), .ask 0 true,
    .look 0 true, .load 0, .take 0]

end State

end FluxKV.Memory.WritePacing
