import Mathlib.Data.List.Basic

/-! # Runs of partial step functions

A machine is an executable partial step function. `exec` replays a finite event tape and `Reach` is
what some tape reaches. A restricted machine takes a step only from a state that meets a condition,
so a run whose steps all meet the condition is a run of the restricted machine. `Along` observes
every state of a tape, and `along_iff_restrict` compares the two when a broken condition shows at once.
-/

namespace FluxKV.Machine

variable {σ ε : Type*}

/-- Replay an event tape, failing at the first event the machine does not take. -/
def exec (step : σ → ε → Option σ) : σ → List ε → Option σ
  | s, [] => some s
  | s, e :: es => (step s e).bind fun next => exec step next es

theorem exec_cons_eq_some {step : σ → ε → Option σ} {s t : σ} {e : ε} {es : List ε} :
    exec step s (e :: es) = some t ↔ ∃ next, step s e = some next ∧ exec step next es = some t :=
  Option.bind_eq_some_iff

theorem exec_append (step : σ → ε → Option σ) (s : σ) (first second : List ε) :
    exec step s (first ++ second) = (exec step s first).bind fun mid => exec step mid second := by
  induction first generalizing s with
  | nil => rfl
  | cons e rest ih => simp only [List.cons_append, exec, ih, Option.bind_assoc]

/-- Where every step that is taken leads to what a total function gives, a tape leads to what its events do one after
the other. -/
theorem foldl_of_exec {step : σ → ε → Option σ} {next : σ → ε → σ} (total : ∀ {s e t}, step s e = some t → t = next s e)
    {s t : σ} {es : List ε} (run : exec step s es = some t) : t = es.foldl next s := by
  induction es generalizing s with
  | nil => exact (Option.some.inj run).symm
  | cons e rest ih =>
    obtain ⟨mid, taken, run⟩ := exec_cons_eq_some.mp run
    rw [total taken] at run
    exact ih run

/-- Some tape leads from the first state to the second. -/
def Reach (step : σ → ε → Option σ) (s t : σ) : Prop := ∃ es, exec step s es = some t

theorem Reach.refl (step : σ → ε → Option σ) (s : σ) : Reach step s s := ⟨[], rfl⟩

theorem Reach.tail {step : σ → ε → Option σ} {s t u : σ} {e : ε} (reached : Reach step s t)
    (last : step t e = some u) : Reach step s u := by
  obtain ⟨es, run⟩ := reached
  exact ⟨es ++ [e], by simp only [exec_append, run, Option.bind_some, exec, last]⟩

theorem ite_some_eq_some {p : Prop} [Decidable p] {s t : σ} : (if p then some s else none) = some t ↔ p ∧ s = t := by
  rw [Option.ite_none_right_eq_some, Option.some.injEq]

/-- A tape that is replayed to a state with a decidable property. -/
theorem exists_exec {step : σ → ε → Option σ} {P : σ → Prop} [DecidablePred P] {s : σ} {es : List ε}
    (holds : (exec step s es).any (P ·) = true) : ∃ t, exec step s es = some t ∧ P t := by
  obtain ⟨t, run, here⟩ := (Option.any_eq_true ..).mp holds
  exact ⟨t, run, of_decide_eq_true here⟩

theorem exists_reach {step : σ → ε → Option σ} {P : σ → Prop} [DecidablePred P] {s : σ} (es : List ε)
    (holds : (exec step s es).any (P ·) = true) : ∃ t, Reach step s t ∧ P t := by
  obtain ⟨t, run, here⟩ := exists_exec holds
  exact ⟨t, ⟨es, run⟩, here⟩

/-- What holds at the start and survives every step holds wherever a tape leads. -/
theorem Reach.invariant {step : σ → ε → Option σ} {P : σ → Prop} {s t : σ} (start : P s)
    (preserved : ∀ {s e t}, P s → step s e = some t → P t) (reached : Reach step s t) : P t := by
  obtain ⟨es, run⟩ := reached
  induction es generalizing s with
  | nil => cases run; exact start
  | cons e rest ih =>
    obtain ⟨next, taken, run⟩ := exec_cons_eq_some.mp run
    exact ih (preserved start taken) run

theorem Reach.trans {step : σ → ε → Option σ} {s t u : σ} (first : Reach step s t) (second : Reach step t u) :
    Reach step s u := by
  obtain ⟨es, run⟩ := first
  obtain ⟨rest, later⟩ := second
  exact ⟨es ++ rest, by rw [exec_append, run, Option.bind_some, later]⟩

/-- The same for what is said of a state and the events that led to it. -/
theorem exec_history {step : σ → ε → Option σ} {P : List ε → σ → Prop} {s t : σ} {es : List ε} (start : P [] s)
    (preserved : ∀ {past s e t}, P past s → step s e = some t → P (past ++ [e]) t) (run : exec step s es = some t) :
    P es t := by
  have from_past : ∀ {es past s}, P past s → exec step s es = some t → P (past ++ es) t := by
    intro es
    induction es with
    | nil =>
      intro past s before run
      cases run
      rwa [List.append_nil]
    | cons e rest ih =>
      intro past s before run
      obtain ⟨next, taken, run⟩ := exec_cons_eq_some.mp run
      have after := ih (preserved before taken) run
      rwa [List.append_assoc] at after
  exact from_past start run

/-- A run of a machine whose steps are a relation. -/
inductive Runs {τ : Type*} (Rel : τ → ε → τ → Prop) : τ → List ε → τ → Prop where
  | nil (s : τ) : Runs Rel s [] s
  | cons {s t u : τ} {e : ε} {es : List ε} (first : Rel s e t) (rest : Runs Rel t es u) : Runs Rel s (e :: es) u

/-- If each step, seen through an abstraction, is a step of the relation, then each tape is a run of it. -/
theorem runs_of_exec {τ : Type*} {step : σ → ε → Option σ} {Rel : τ → ε → τ → Prop} {P : σ → Prop} (view : σ → τ)
    {s t : σ} {es : List ε} (start : P s) (preserved : ∀ {s e t}, P s → step s e = some t → P t)
    (simulated : ∀ {s e t}, P s → step s e = some t → Rel (view s) e (view t))
    (run : exec step s es = some t) : Runs Rel (view s) es (view t) := by
  induction es generalizing s with
  | nil =>
    cases run
    exact .nil _
  | cons e rest ih =>
    obtain ⟨next, taken, run⟩ := exec_cons_eq_some.mp run
    exact .cons (simulated start taken) (ih (preserved start taken) run)

/-- The machine that takes a step only where the condition holds. -/
def restrict (ok : σ → ε → Prop) [∀ s e, Decidable (ok s e)] (step : σ → ε → Option σ) (s : σ) (e : ε) :
    Option σ :=
  if ok s e then step s e else none

section Restrict

variable {ok : σ → ε → Prop} [∀ s e, Decidable (ok s e)] {step : σ → ε → Option σ} {s t : σ} {e : ε}

theorem restrict_eq_some : restrict ok step s e = some t ↔ ok s e ∧ step s e = some t :=
  Option.ite_none_right_eq_some

/-- A run of the restricted machine is a run of the machine. -/
theorem exec_of_restrict {es : List ε} (run : exec (restrict ok step) s es = some t) :
    exec step s es = some t := by
  induction es generalizing s with
  | nil => exact run
  | cons e rest ih =>
    obtain ⟨next, taken, run⟩ := exec_cons_eq_some.mp run
    exact exec_cons_eq_some.mpr ⟨next, (restrict_eq_some.mp taken).2, ih run⟩

end Restrict

/-- The observation holds in every state the tape visits, both ends included. -/
def Along (step : σ → ε → Option σ) (P : σ → Prop) : σ → List ε → Prop
  | s, [] => P s
  | s, e :: es => P s ∧ ∀ next, step s e = some next → Along step P next es

theorem Along.of_invariant {step : σ → ε → Option σ} {P I : σ → Prop} {s : σ} (start : I s)
    (preserved : ∀ {s e t}, I s → step s e = some t → I t) (observed : ∀ {s}, I s → P s) (es : List ε) :
    Along step P s es := by
  induction es generalizing s with
  | nil => exact observed start
  | cons e rest ih => exact ⟨observed start, fun _ taken => ih (preserved start taken)⟩

/-- If the condition keeps an invariant that gives the observation, and a step that breaks the
condition breaks the observation in the very next state, then a run satisfies the observation
throughout exactly when each of its steps meets the condition. -/
theorem along_iff_restrict {ok : σ → ε → Prop} [∀ s e, Decidable (ok s e)] {step : σ → ε → Option σ}
    {P Inv : σ → Prop} {s t : σ} {es : List ε} (start : Inv s)
    (preserved : ∀ {s e t}, Inv s → ok s e → step s e = some t → Inv t)
    (observed : ∀ {s}, Inv s → P s)
    (exposed : ∀ {s e t}, Inv s → ¬ ok s e → step s e = some t → ¬ P t)
    (run : exec step s es = some t) :
    Along step P s es ↔ exec (restrict ok step) s es = some t := by
  induction es generalizing s with
  | nil => exact ⟨fun _ => run, fun _ => observed start⟩
  | cons e rest ih =>
    obtain ⟨next, taken, run⟩ := exec_cons_eq_some.mp run
    by_cases holds : ok s e
    · have tail := ih (preserved start holds taken) run
      constructor
      · intro along
        exact exec_cons_eq_some.mpr ⟨next, restrict_eq_some.mpr ⟨holds, taken⟩, tail.mp (along.2 next taken)⟩
      · intro restricted
        refine ⟨observed start, fun other same => ?_⟩
        obtain rfl := Option.some.inj (taken.symm.trans same)
        obtain ⟨mid, first, restricted⟩ := exec_cons_eq_some.mp restricted
        obtain rfl := Option.some.inj ((restrict_eq_some.mp first).2.symm.trans taken)
        exact tail.mpr restricted
    · constructor
      · intro along
        have tail := along.2 next taken
        have seen : P next := by cases rest with
          | nil => exact tail
          | cons _ _ => exact tail.1
        exact (exposed start holds taken seen).elim
      · intro restricted
        obtain ⟨mid, first, _⟩ := exec_cons_eq_some.mp restricted
        exact (holds (restrict_eq_some.mp first).1).elim

end FluxKV.Machine
