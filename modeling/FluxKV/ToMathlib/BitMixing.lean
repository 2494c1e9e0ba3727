import Mathlib.Data.Nat.Bitwise
import Mathlib.Data.Nat.ModEq
import Mathlib.Data.Set.Function
import Mathlib.Order.Interval.Set.Defs

/-! # Mixing bits by shifts and exclusive or

A reflected shift register moves down one place at a time and takes its polynomial in when the bit that leaves it is
set. A step is linear in exclusive or, so several steps split into those of the bits that leave, which a table can
hold, and a plain shift of the others. On numbers below a power of two, exclusive or with a shifted copy and
multiplication by an odd factor lose nothing.
-/

namespace FluxKV.BitMixing

section Register

variable {w : ℕ} (poly : BitVec w)

/-- One step of the register. -/
def shift (c : BitVec w) : BitVec w := if c.getLsbD 0 then poly ^^^ (c >>> 1) else c >>> 1

/-- One step of the register with a message bit, which is added to the bit that leaves. -/
def feed (c : BitVec w) (bit : Bool) : BitVec w := if c.getLsbD 0 ^^ bit then poly ^^^ (c >>> 1) else c >>> 1

theorem shift_xor (a b : BitVec w) : shift poly (a ^^^ b) = shift poly a ^^^ shift poly b := by
  have twice : poly ^^^ (a >>> 1) ^^^ (poly ^^^ (b >>> 1)) = a >>> 1 ^^^ (b >>> 1) := by
    rw [show poly ^^^ (a >>> 1) ^^^ (poly ^^^ (b >>> 1)) = poly ^^^ poly ^^^ (a >>> 1 ^^^ (b >>> 1)) by ac_rfl,
      BitVec.xor_self, BitVec.zero_xor]
  simp only [shift, BitVec.getLsbD_xor, BitVec.ushiftRight_xor_distrib]
  cases a.getLsbD 0 <;> cases b.getLsbD 0
  · rfl
  · simp only [Bool.false_xor, if_true, Bool.false_eq_true, if_false]
    ac_rfl
  · simp only [Bool.xor_false, if_true, Bool.false_eq_true, if_false]
    ac_rfl
  · exact twice.symm

theorem shift_iterate_xor (k : ℕ) (a b : BitVec w) :
    (shift poly)^[k] (a ^^^ b) = (shift poly)^[k] a ^^^ (shift poly)^[k] b := by
  induction k generalizing a b with
  | zero => rfl
  | succ k ih => simp only [Function.iterate_succ_apply, shift_xor, ih]

/-- Bits that have not reached the end only move down. -/
theorem shift_iterate_of_clear {k : ℕ} {c : BitVec w} (clear : ∀ i < k, c.getLsbD i = false) :
    (shift poly)^[k] c = c >>> k := by
  induction k with
  | zero => rfl
  | succ k ih =>
    have low : (c >>> k).getLsbD 0 = false := by simpa using clear k (Nat.lt_succ_self k)
    rw [Function.iterate_succ_apply', ih fun i below => clear i (Nat.lt_succ_of_lt below), shift, low,
      BitVec.shiftRight_add]
    rfl

/-- Steps of the register are a look-up of the bits that leave it and a shift of the others. -/
theorem shift_iterate_eq_lookup (k : ℕ) (c : BitVec w) :
    (shift poly)^[k] c = (shift poly)^[k] (c &&& BitVec.ofNat w (2 ^ k - 1)) ^^^ (c >>> k) := by
  have split : c = (c &&& BitVec.ofNat w (2 ^ k - 1)) ^^^ (c >>> k <<< k) := by
    refine BitVec.eq_of_getLsbD_eq fun i inside => ?_
    simp only [BitVec.getLsbD_xor, BitVec.getLsbD_and, BitVec.getLsbD_shiftLeft, BitVec.getLsbD_ushiftRight,
      BitVec.getLsbD_ofNat, Nat.testBit_two_pow_sub_one, inside]
    rcases Nat.lt_or_ge i k with low | high
    · simp [low]
    · simp [Nat.not_lt.mpr high, Nat.add_sub_cancel' high]
  have high : (shift poly)^[k] (c >>> k <<< k) = c >>> k := by
    rw [shift_iterate_of_clear poly fun i below => by simp [below]]
    ext i inside
    simp only [BitVec.getElem_ushiftRight, BitVec.getLsbD_shiftLeft, BitVec.getLsbD_ushiftRight]
    rcases Nat.lt_or_ge (k + i) w with low | high
    · simp [low]
    · simp [BitVec.getLsbD_of_ge c (k + i) high]
  conv_lhs => rw [split, shift_iterate_xor, high]

/-- Feeding the bits of a word, lowest first, is adding the word to the register and stepping as often. -/
theorem foldl_feed {k : ℕ} {x : BitVec w} (clear : ∀ i, k ≤ i → x.getLsbD i = false) (c : BitVec w) :
    ((List.range k).map x.getLsbD).foldl (feed poly) c = (shift poly)^[k] (c ^^^ x) := by
  induction k generalizing x c with
  | zero =>
    have nothing : x = 0#w := BitVec.eq_of_getLsbD_eq fun i _ => by simpa using clear i (Nat.zero_le i)
    rw [nothing, BitVec.xor_zero]
    rfl
  | succ k ih =>
    have step : feed poly c (x.getLsbD 0) ^^^ (x >>> 1) = shift poly (c ^^^ x) := by
      simp only [shift, feed, BitVec.getLsbD_xor, BitVec.ushiftRight_xor_distrib]
      split
      · exact BitVec.xor_assoc ..
      · rfl
    have later : (List.range k).map (x.getLsbD ∘ Nat.succ) = (List.range k).map (x >>> 1).getLsbD :=
      List.map_congr_left fun i _ => by simp [Nat.add_comm 1 i]
    rw [List.range_succ_eq_map, List.map_cons, List.map_map, later, List.foldl_cons,
      ih fun i above => by simpa [Nat.add_comm 1 i] using clear (i + 1) (Nat.succ_le_succ above), step,
      Function.iterate_succ_apply]

end Register

/-- A number and its own copy, moved down. -/
def xorShift (k n : ℕ) : ℕ := n ^^^ (n >>> k)

theorem xorShift_lt {w n : ℕ} (k : ℕ) (below : n < 2 ^ w) : xorShift k n < 2 ^ w :=
  Nat.xor_lt_two_pow below (Nat.lt_of_le_of_lt (Nat.shiftRight_le n k) below)

theorem xorShift_injective {k : ℕ} (pos : 0 < k) : Function.Injective (xorShift k) := by
  intro a b same
  -- the difference is its own copy moved down, so nothing is left of it
  have moved : a ^^^ b = (a ^^^ b) >>> k := by
    have crossed : a ^^^ b ^^^ (xorShift k a ^^^ xorShift k b) = (a >>> k) ^^^ (b >>> k) := by
      rw [show a ^^^ b ^^^ (xorShift k a ^^^ xorShift k b) =
        (a ^^^ a) ^^^ (b ^^^ b) ^^^ ((a >>> k) ^^^ (b >>> k)) by unfold xorShift; ac_rfl]
      simp
    rw [Nat.shiftRight_xor_distrib, ← crossed, same, Nat.xor_self, Nat.xor_zero]
  rcases Nat.eq_zero_or_pos (a ^^^ b) with zero | some
  · exact Nat.xor_eq_zero_iff.mp zero
  · rw [Nat.shiftRight_eq_div_pow] at moved
    exact absurd moved.symm (Nat.ne_of_lt (Nat.div_lt_self some (Nat.one_lt_two_pow pos.ne')))

theorem mul_mod_injOn {m w : ℕ} (odd : Nat.Coprime m 2) :
    Set.InjOn (fun n => n * m % 2 ^ w) (Set.Iio (2 ^ w)) := by
  intro a below b below' same
  have cancelled : a ≡ b [MOD 2 ^ w] := Nat.ModEq.cancel_right_of_coprime (Nat.Coprime.pow_left w odd.symm) same
  rwa [Nat.ModEq, Nat.mod_eq_of_lt below, Nat.mod_eq_of_lt below'] at cancelled

end FluxKV.BitMixing
