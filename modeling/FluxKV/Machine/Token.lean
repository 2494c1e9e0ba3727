import Mathlib.Data.Nat.Notation
import Mathlib.Tactic.ByContra

/-! # A flag and its token

A flag that is set by whoever finds it clear stands for one token. The token is created with the flag,
passes from holder to holder, and is given up when the flag is cleared. Holders may be queues as well
as threads, so each has a number of tokens.
-/

namespace FluxKV.Machine

variable {H : Type*}

/-- There is one token if the flag is set and none otherwise. -/
structure OneToken (flag : Bool) (tokens : H → ℕ) : Prop where
  free : flag = false → ∀ h, tokens h = 0
  held : flag = true → ∃ h, tokens h = 1 ∧ ∀ other, other ≠ h → tokens other = 0

namespace OneToken

variable {flag : Bool} {tokens after : H → ℕ} {g h : H}

theorem flag_of_pos (one : OneToken flag tokens) (holds : 0 < tokens h) : flag = true := by
  by_contra unset
  have := one.free (by simpa using unset) h
  omega

theorem eq_of_pos (one : OneToken flag tokens) (first : 0 < tokens g) (second : 0 < tokens h) : g = h := by
  obtain ⟨holder, _, others⟩ := one.held (one.flag_of_pos first)
  have only : ∀ x, 0 < tokens x → x = holder := fun x holds => by
    by_contra differ
    have := others x differ
    omega
  rw [only g first, only h second]

theorem le_one (one : OneToken flag tokens) (h : H) : tokens h ≤ 1 := by
  cases flag with
  | false => rw [one.free rfl h]; omega
  | true =>
    obtain ⟨holder, single, others⟩ := one.held rfl
    by_cases same : h = holder
    · subst same; omega
    · rw [others h same]; omega

theorem others (one : OneToken flag tokens) (holds : 0 < tokens h) {other : H} (differ : other ≠ h) :
    tokens other = 0 := by
  by_contra positive
  exact differ (one.eq_of_pos (by omega) holds)

/-- An exchange sets the flag; whoever finds it clear gets the token. -/
theorem exchange (one : OneToken flag tokens) (idle : tokens h = 0) (got : after h = if flag then 0 else 1)
    (rest : ∀ x, x ≠ h → after x = tokens x) : OneToken true after where
  free unset := Bool.noConfusion unset
  held _ := by
    cases flag with
    | false =>
      refine ⟨h, got, fun x differ => ?_⟩
      rw [rest x differ, one.free rfl]
    | true =>
      obtain ⟨holder, single, others⟩ := one.held rfl
      have apart : holder ≠ h := by
        rintro rfl
        omega
      refine ⟨holder, by rw [rest holder apart, single], fun x differ => ?_⟩
      by_cases same : x = h
      · rw [same, got, if_pos rfl]
      · rw [rest x same, others x differ]

/-- A holder passes the token on. -/
theorem pass (one : OneToken flag tokens) (holds : 0 < tokens g) (differ : h ≠ g)
    (gave : after g = tokens g - 1) (got : after h = tokens h + 1)
    (rest : ∀ x, x ≠ g → x ≠ h → after x = tokens x) : OneToken flag after where
  free unset := by
    rw [one.flag_of_pos holds] at unset
    cases unset
  held _ := by
    refine ⟨h, by rw [got, one.others holds differ], fun x other => ?_⟩
    by_cases same : x = g
    · have := one.le_one g
      rw [same, gave]
      omega
    · rw [rest x same other, one.others holds same]

/-- The holder clears the flag and the token is gone. -/
theorem drop (one : OneToken flag tokens) (holds : 0 < tokens h) (gave : after h = tokens h - 1)
    (rest : ∀ x, x ≠ h → after x = tokens x) : OneToken false after where
  free _ x := by
    by_cases same : x = h
    · have := one.le_one h
      rw [same, gave]
      omega
    · rw [rest x same, one.others holds same]
  held set := Bool.noConfusion set

end OneToken

end FluxKV.Machine
