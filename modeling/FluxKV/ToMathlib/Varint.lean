import FluxKV.ToMathlib.BigEndian
import Mathlib.Algebra.Group.Nat.Defs

/-! # Little-endian words and varints

A word of a fixed width is stored with its lowest byte first. A varint holds seven bits of a 64-bit
number per byte, the lowest first, and the high bit of each byte says whether more follow; ten bytes
are always enough. Readers take what they need from the front and hand back the rest.
-/

namespace FluxKV.Varint

open BigEndian

/-- The last `width` bytes of a number, least significant first. -/
def leBytes (width n : ℕ) : List UInt8 := (beBytes width n).reverse

/-- The value of a byte string, least significant byte first. -/
def leNat (bytes : List UInt8) : ℕ := beNat bytes.reverse

@[simp] theorem leBytes_length (width n : ℕ) : (leBytes width n).length = width := by simp [leBytes]

theorem leNat_leBytes (width : ℕ) {n : ℕ} (fits : n < 256 ^ width) : leNat (leBytes width n) = n := by
  rw [leNat, leBytes, List.reverse_reverse, beNat_beBytes, Nat.mod_eq_of_lt fits]

/-- A word of `width` bytes, if there are as many. -/
def getFixed (width : ℕ) (bytes : List UInt8) : Option (ℕ × List UInt8) :=
  if bytes.length < width then none else some (leNat (bytes.take width), bytes.drop width)

theorem getFixed_leBytes (width : ℕ) {n : ℕ} (fits : n < 256 ^ width) (rest : List UInt8) :
    getFixed width (leBytes width n ++ rest) = some (n, rest) := by
  have long : ¬ (leBytes width n ++ rest).length < width := by simp
  rw [getFixed, if_neg long, List.take_left' (leBytes_length width n), List.drop_left' (leBytes_length width n),
    leNat_leBytes width fits]

theorem toNat_shiftRight_seven (v : UInt64) : (v >>> 7).toNat = v.toNat / 128 := by
  simp [Nat.shiftRight_eq_div_pow]

theorem le_iff_toNat (v : UInt64) : 0x80 ≤ v ↔ 128 ≤ v.toNat := UInt64.le_iff_toNat_le

def putVarint (v : UInt64) : List UInt8 :=
  if 0x80 ≤ v then (v ||| 0x80).toUInt8 :: putVarint (v >>> 7) else [v.toUInt8]
termination_by v.toNat
decreasing_by
  have large := (le_iff_toNat v).mp ‹_›
  rw [toNat_shiftRight_seven]
  omega

/-- Read on from the bit `shift`, with the lower bits in `r`. -/
def getVarintFrom (shift : ℕ) (r : UInt64) : List UInt8 → Option (UInt64 × List UInt8)
  | [] => none
  | b :: rest =>
    if shift < 64 then
      let r := r ||| (b &&& 0x7f).toUInt64 <<< UInt64.ofNat shift
      if b &&& 0x80 = 0 then some (r, rest) else getVarintFrom (shift + 7) r rest
    else none

def getVarint (bytes : List UInt8) : Option (UInt64 × List UInt8) := getVarintFrom 0 0 bytes

/-- The rule of induction for `putVarint`: a number is below 128, or its upper bits come before it. -/
theorem upper_induction {P : UInt64 → Prop} (last : ∀ v : UInt64, v.toNat < 128 → P v)
    (more : ∀ v : UInt64, 128 ≤ v.toNat → P (v >>> 7) → P v) (v : UInt64) : P v := by
  induction bound : v.toNat using Nat.strongRecOn generalizing v with
  | ind n ih =>
    rcases Nat.lt_or_ge v.toNat 128 with small | large
    · exact last v small
    · refine more v large (ih (v >>> 7).toNat ?_ (v >>> 7) rfl)
      rw [toNat_shiftRight_seven]
      omega

theorem putVarint_small {v : UInt64} (small : v.toNat < 128) : putVarint v = [v.toUInt8] := by
  rw [putVarint, if_neg (mt (le_iff_toNat v).mp (Nat.not_le.mpr small))]

theorem putVarint_large {v : UInt64} (large : 128 ≤ v.toNat) :
    putVarint v = (v ||| 0x80).toUInt8 :: putVarint (v >>> 7) := by
  rw [putVarint, if_pos ((le_iff_toNat v).mpr large)]

/-- As many bytes as there are groups of seven bits. -/
theorem putVarint_length_le {k : ℕ} : ∀ {v : UInt64}, v.toNat < 128 ^ (k + 1) → (putVarint v).length ≤ k + 1 := by
  induction k with
  | zero =>
    intro v small
    rw [putVarint_small (by omega)]
    rfl
  | succ k ih =>
    intro v bound
    rcases Nat.lt_or_ge v.toNat 128 with small | large
    · rw [putVarint_small small, List.length_singleton]
      omega
    · rw [putVarint_large large, List.length_cons]
      apply Nat.succ_le_succ
      apply ih
      rw [toNat_shiftRight_seven]
      exact Nat.div_lt_of_lt_mul (by rw [Nat.mul_comm, ← Nat.pow_succ]; exact bound)

theorem putVarint_length (v : UInt64) : (putVarint v).length ≤ 10 :=
  putVarint_length_le (k := 9) (lt_of_lt_of_le v.toNat_lt (by decide))

private theorem high_bit (b : UInt8) : b &&& 0x80 = 0 ↔ b.toNat < 128 := by
  have bits : ∀ n < 256, n &&& 128 = 0 ↔ n < 128 := by decide +kernel
  rw [← UInt8.toNat_inj, UInt8.toNat_and]
  exact bits b.toNat b.toNat_lt

private theorem low_bits (b : UInt8) : (b &&& 0x7f).toNat = b.toNat % 128 := by
  rw [UInt8.toNat_and]
  exact Nat.and_two_pow_sub_one_eq_mod b.toNat 7

private theorem toNat_more (v : UInt64) : (v ||| 0x80).toUInt8.toNat = v.toNat % 128 + 128 := by
  have bits : ∀ low < 256, low ||| 128 = low % 128 + 128 := by decide +kernel
  rw [UInt64.toNat_toUInt8, UInt64.toNat_or, Nat.or_mod_two_pow (n := 8)]
  rw [show (0x80 : UInt64).toNat % 2 ^ 8 = 128 from rfl, bits _ (Nat.mod_lt _ (by decide))]
  omega

/-- One group of seven bits joins the lower bits. -/
private theorem toNat_join {r : UInt64} {b : UInt8} {shift : ℕ} (below : r.toNat < 2 ^ shift) (inside : shift < 64)
    (fits : b.toNat % 128 * 2 ^ shift < 2 ^ 64) :
    (r ||| (b &&& 0x7f).toUInt64 <<< UInt64.ofNat shift).toNat = r.toNat + b.toNat % 128 * 2 ^ shift := by
  have width : (UInt64.ofNat shift).toNat % 64 = shift := by
    rw [UInt64.toNat_ofNat']
    omega
  rw [UInt64.toNat_or, UInt64.toNat_shiftLeft, width, UInt8.toNat_toUInt64, low_bits, Nat.shiftLeft_eq,
    Nat.mod_eq_of_lt fits, Nat.or_comm, ← Nat.shiftLeft_eq, ← Nat.shiftLeft_add_eq_or_of_lt below, Nat.shiftLeft_eq,
    Nat.add_comm]

/-- What was put is read back, above the bits that were read before. -/
theorem getVarintFrom_putVarint (v : UInt64) : ∀ (shift : ℕ) (r : UInt64) (rest : List UInt8), shift < 64 →
    r.toNat < 2 ^ shift → v.toNat * 2 ^ shift < 2 ^ 64 →
      getVarintFrom shift r (putVarint v ++ rest) = some (.ofNat (r.toNat + v.toNat * 2 ^ shift), rest) := by
  induction v using upper_induction with
  | last v small =>
    intro shift r rest inside below fits
    have byte : v.toUInt8.toNat = v.toNat := by
      rw [UInt64.toNat_toUInt8]
      omega
    have group : v.toUInt8.toNat % 128 = v.toNat := by omega
    have joined := toNat_join (b := v.toUInt8) below inside (by rw [group]; exact fits)
    rw [putVarint_small small, List.singleton_append, getVarintFrom, if_pos inside,
      if_pos ((high_bit _).mpr (by omega)), ← group, ← joined, UInt64.ofNat_toNat]
  | more v large ih =>
    intro shift r rest inside below fits
    have upper := toNat_shiftRight_seven v
    have byte := toNat_more v
    have group : (v ||| 0x80).toUInt8.toNat % 128 = v.toNat % 128 := by omega
    have seven : 2 ^ (shift + 7) = 128 * 2 ^ shift := by rw [Nat.pow_add, Nat.mul_comm]
    have whole : v.toNat * 2 ^ shift = v.toNat % 128 * 2 ^ shift + v.toNat / 128 * 2 ^ (shift + 7) := by
      rw [seven, ← Nat.mul_assoc, ← Nat.add_mul]
      congr 1
      omega
    have lower : v.toNat % 128 * 2 ^ shift ≤ 127 * 2 ^ shift := Nat.mul_le_mul_right _ (by omega)
    have one : 2 ^ (shift + 7) ≤ v.toNat / 128 * 2 ^ (shift + 7) := Nat.le_mul_of_pos_left _ (by omega)
    have room : shift + 7 < 64 := by
      apply (Nat.pow_lt_pow_iff_right (a := 2) (by decide)).mp
      omega
    have joined := toNat_join (b := (v ||| 0x80).toUInt8) below inside (by rw [group]; omega)
    rw [group] at joined
    rw [putVarint_large large, List.cons_append, getVarintFrom, if_pos inside,
      if_neg (mt (high_bit _).mp (by omega)), ih _ _ _ room (by rw [joined]; omega) (by rw [upper]; omega), joined, upper]
    congr 3
    omega

theorem getVarint_putVarint (v : UInt64) (rest : List UInt8) : getVarint (putVarint v ++ rest) = some (v, rest) := by
  have bound := v.toNat_lt
  have read := getVarintFrom_putVarint v 0 0 rest (by decide) (by decide) (by omega)
  rw [getVarint, read]
  simp

/-- The reader `get` takes `v` off the front of what starts with `bytes`, and fails where `bytes` is cut
short. -/
structure Reads {α : Type*} (get : List UInt8 → Option (α × List UInt8)) (bytes : List UInt8) (v : α) : Prop where
  whole : ∀ rest, get (bytes ++ rest) = some (v, rest)
  cut : ∀ p, p <+: bytes → p ≠ bytes → get p = none

/-- A cut falls into the first field, or the reader gets past it and the cut is in what follows. -/
theorem Reads.bind_eq_none {α β : Type*} {get : List UInt8 → Option (α × List UInt8)} {bytes more : List UInt8} {v : α}
    (reads : Reads get bytes v) {next : α × List UInt8 → Option β}
    (later : ∀ p, p <+: more → p ≠ more → next (v, p) = none) :
    ∀ p, p <+: bytes ++ more → p ≠ bytes ++ more → (get p).bind next = none := by
  intro p cut short
  rcases List.prefix_or_prefix_of_prefix cut (List.prefix_append bytes more) with within | ⟨q, rfl⟩
  · rcases eq_or_ne p bytes with rfl | inside
    · have missing : [] ≠ more := by
        rintro rfl
        exact short (List.append_nil p).symm
      have read := reads.whole []
      rw [List.append_nil] at read
      rw [read, Option.bind_some]
      exact later [] List.nil_prefix missing
    · rw [reads.cut p within inside, Option.bind_none]
  · rw [reads.whole, Option.bind_some]
    exact later q ((List.prefix_append_right_inj bytes).mp cut) (mt (congrArg (bytes ++ ·)) short)

/-- No byte of a varint but the last one ends it. -/
theorem getVarintFrom_cut (v : UInt64) : ∀ (shift : ℕ) (r : UInt64) (p : List UInt8), p <+: putVarint v →
    p ≠ putVarint v → getVarintFrom shift r p = none := by
  induction v using upper_induction with
  | last v small =>
    intro shift r p cut short
    rw [putVarint_small small] at cut short
    rcases List.prefix_cons_iff.mp cut with rfl | ⟨q, rfl, nothing⟩
    · rfl
    · rw [List.prefix_nil.mp nothing] at short
      exact absurd rfl short
  | more v large ih =>
    intro shift r p cut short
    rw [putVarint_large large] at cut short
    rcases List.prefix_cons_iff.mp cut with rfl | ⟨q, rfl, within⟩
    · rfl
    · have byte := toNat_more v
      rw [getVarintFrom]
      split
      · rw [if_neg (mt (high_bit _).mp (by omega))]
        exact ih _ _ q within (mt (congrArg _) short)
      · rfl

theorem reads_putVarint (v : UInt64) : Reads getVarint (putVarint v) v where
  whole := getVarint_putVarint v
  cut := getVarintFrom_cut v 0 0

theorem reads_leBytes (width : ℕ) {n : ℕ} (fits : n < 256 ^ width) : Reads (getFixed width) (leBytes width n) n where
  whole := getFixed_leBytes width fits
  cut p cut short := by
    have fewer : p.length < width := by
      have bound := cut.length_le
      rw [leBytes_length] at bound
      refine lt_of_le_of_ne bound fun same => short (cut.eq_of_length ?_)
      rw [same, leBytes_length]
    rw [getFixed, if_pos fewer]

end FluxKV.Varint
