import Mathlib.Data.List.Basic
import Mathlib.Tactic.Ring

/-! # Big-endian byte strings

`beNat` reads a byte string as a big-endian number. On strings of one length it is an order embedding
of the lexicographic order. Zero-padding to a width forgets trailing zero bytes and the length, and
nothing else: the padded order decides the byte order whenever the padded strings differ.
-/

namespace FluxKV.BigEndian

/-- The value of a byte string, most significant byte first. -/
def beNat : List UInt8 → ℕ
  | [] => 0
  | b :: rest => b.toNat * 256 ^ rest.length + beNat rest

theorem beNat_lt (bytes : List UInt8) : beNat bytes < 256 ^ bytes.length := by
  induction bytes with
  | nil => decide
  | cons b rest ih =>
    have byte : b.toNat < 256 := b.toNat_lt
    calc beNat (b :: rest) < b.toNat * 256 ^ rest.length + 256 ^ rest.length := Nat.add_lt_add_left ih _
      _ = (b.toNat + 1) * 256 ^ rest.length := by ring
      _ ≤ 256 * 256 ^ rest.length := Nat.mul_le_mul_right _ byte
      _ = 256 ^ (b :: rest).length := by rw [List.length_cons, Nat.pow_succ, Nat.mul_comm]

theorem beNat_append (first second : List UInt8) :
    beNat (first ++ second) = beNat first * 256 ^ second.length + beNat second := by
  induction first with
  | nil => simp [beNat]
  | cons b rest ih => simp only [List.cons_append, beNat, ih, List.length_append, Nat.pow_add]; ring

theorem beNat_replicate_zero (width : ℕ) : beNat (List.replicate width 0) = 0 := by
  induction width with
  | zero => rfl
  | succ width ih => simp [List.replicate_succ, beNat, ih]

/-- The last `width` bytes of a number, most significant first. -/
def beBytes : ℕ → ℕ → List UInt8
  | 0, _ => []
  | width + 1, n => .ofNat (n / 256 ^ width) :: beBytes width n

@[simp] theorem beBytes_length (width n : ℕ) : (beBytes width n).length = width := by
  induction width with
  | zero => rfl
  | succ width ih => rw [beBytes, List.length_cons, ih]

theorem beNat_beBytes (width n : ℕ) : beNat (beBytes width n) = n % 256 ^ width := by
  induction width with
  | zero => simp [beBytes, beNat, Nat.mod_one]
  | succ width ih =>
    rw [beBytes, beNat, beBytes_length, ih, UInt8.toNat_ofNat', Nat.mod_pow_succ (b := 256), Nat.add_comm,
      Nat.mul_comm]

private theorem digit_lt_iff {a b x y base : ℕ} (left : x < base) (right : y < base) :
    a * base + x < b * base + y ↔ a < b ∨ a = b ∧ x < y := by
  rcases Nat.lt_trichotomy a b with less | rfl | more
  · have gap : (a + 1) * base ≤ b * base := Nat.mul_le_mul_right _ less
    have expand : (a + 1) * base = a * base + base := by ring
    exact ⟨fun _ => .inl less, fun _ => by omega⟩
  · simp
  · have gap : (b + 1) * base ≤ a * base := Nat.mul_le_mul_right _ more
    have expand : (b + 1) * base = b * base + base := by ring
    constructor
    · intro below; omega
    · rintro (less | ⟨same, _⟩) <;> omega

/-- At one length, comparing the numbers is comparing the bytes. -/
theorem beNat_lt_iff {left right : List UInt8} (length : left.length = right.length) :
    beNat left < beNat right ↔ left < right := by
  induction left generalizing right with
  | nil =>
    obtain rfl : right = [] := List.length_eq_zero_iff.mp length.symm
    simp
  | cons a as ih =>
    cases right with
    | nil => simp at length
    | cons b bs =>
      have tails : as.length = bs.length := by simpa using length
      have leftBound := beNat_lt as
      have rightBound := beNat_lt bs
      rw [tails] at leftBound
      rw [List.cons_lt_cons_iff, ← ih tails, beNat, beNat, tails, digit_lt_iff leftBound rightBound,
        UInt8.lt_iff_toNat_lt, UInt8.toNat_inj]

theorem beNat_inj {left right : List UInt8} (length : left.length = right.length)
    (same : beNat left = beNat right) : left = right := by
  apply List.le_antisymm <;> apply List.not_lt.mp <;> intro less
  · exact absurd ((beNat_lt_iff length.symm).mpr less) (by omega)
  · exact absurd ((beNat_lt_iff length).mpr less) (by omega)

/-- A byte string is that of its value. -/
theorem beBytes_beNat (bytes : List UInt8) : beBytes bytes.length (beNat bytes) = bytes := by
  apply beNat_inj (beBytes_length ..)
  rw [beNat_beBytes, Nat.mod_eq_of_lt (beNat_lt bytes)]

/-- The last bytes are those of the remainder. -/
theorem beBytes_mod (width n : ℕ) : beBytes width (n % 256 ^ width) = beBytes width n := by
  apply beNat_inj
  · rw [beBytes_length, beBytes_length]
  · rw [beNat_beBytes, beNat_beBytes, Nat.mod_mod]

/-- The first `width` bytes, filled up with zero bytes on the right. -/
def pad (width : ℕ) (bytes : List UInt8) : List UInt8 :=
  bytes.take width ++ List.replicate (width - bytes.length) 0

@[simp] theorem pad_length (width : ℕ) (bytes : List UInt8) : (pad width bytes).length = width := by
  simp only [pad, List.length_append, List.length_take, List.length_replicate]
  omega

theorem pad_of_le {width : ℕ} {bytes : List UInt8} (long : width ≤ bytes.length) :
    pad width bytes = bytes.take width := by
  simp [pad, Nat.sub_eq_zero_of_le long]

@[simp] theorem pad_succ_nil (width : ℕ) : pad (width + 1) [] = 0 :: pad width [] := by
  simp [pad, List.replicate_succ]

@[simp] theorem pad_succ_cons (width : ℕ) (b : UInt8) (rest : List UInt8) :
    pad (width + 1) (b :: rest) = b :: pad width rest := by
  simp [pad]

/-- A strict difference within the width is a strict difference of the strings themselves. -/
theorem lt_of_pad_lt {width : ℕ} {left right : List UInt8} (less : pad width left < pad width right) :
    left < right := by
  induction width generalizing left right with
  | zero =>
    simp only [pad, List.take_zero, Nat.zero_sub, List.replicate_zero, List.append_nil] at less
    exact absurd less (List.not_lt_nil _)
  | succ width ih =>
    cases right with
    | nil =>
      cases left with
      | nil => exact absurd less (List.lt_irrefl _)
      | cons a as =>
        simp only [pad_succ_cons, pad_succ_nil, List.cons_lt_cons_iff] at less
        rcases less with less | ⟨_, less⟩
        · exact absurd less (by simp [UInt8.lt_iff_toNat_lt])
        · exact absurd (ih less) (List.not_lt_nil _)
    | cons b bs =>
      cases left with
      | nil => exact List.nil_lt_cons b bs
      | cons a as =>
        simp only [pad_succ_cons, List.cons_lt_cons_iff] at less ⊢
        exact less.imp_right fun tail => ⟨tail.1, ih tail.2⟩

/-- Two strings that fit the width and agree when padded differ only in trailing zero bytes, so
their lengths decide their order. -/
theorem lt_iff_length_lt_of_pad_eq {width : ℕ} {left right : List UInt8} (fitsLeft : left.length ≤ width)
    (fitsRight : right.length ≤ width) (same : pad width left = pad width right) :
    left < right ↔ left.length < right.length := by
  induction width generalizing left right with
  | zero =>
    obtain rfl := List.length_eq_zero_iff.mp (Nat.le_zero.mp fitsLeft)
    obtain rfl := List.length_eq_zero_iff.mp (Nat.le_zero.mp fitsRight)
    simp
  | succ width ih =>
    cases right with
    | nil => simp
    | cons b bs =>
      cases left with
      | nil => simp
      | cons a as =>
        simp only [List.length_cons, Nat.add_le_add_iff_right] at fitsLeft fitsRight
        simp only [pad_succ_cons, List.cons.injEq] at same
        obtain ⟨rfl, same⟩ := same
        have head : ¬ a < a := by simp
        simp only [List.cons_lt_cons_iff, head, true_and, false_or, List.length_cons,
          Nat.add_lt_add_iff_right, ih fitsLeft fitsRight same]

theorem eq_of_pad_eq {width : ℕ} {left right : List UInt8} (fits : left.length ≤ width)
    (length : left.length = right.length) (same : pad width left = pad width right) : left = right := by
  have below := lt_iff_length_lt_of_pad_eq fits (length ▸ fits) same
  have above := lt_iff_length_lt_of_pad_eq (length ▸ fits) fits same.symm
  apply List.le_antisymm <;> apply List.not_lt.mp <;> intro less
  · exact absurd (above.mp less) (by omega)
  · exact absurd (below.mp less) (by omega)

end FluxKV.BigEndian
