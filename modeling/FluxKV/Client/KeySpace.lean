import FluxKV.Client.Requests
import FluxKV.ToMathlib.BitMixing
import Mathlib.Data.Set.Finite.Basic

/-! # The client's key space

A key's vbucket is read off its CRC-32, which the client computes a byte at a time from a table. The server and other
clients only agree if this is the checksum they compute, so it is compared with the one that takes the message bit by
bit. With `-scramble` an index is sent through a permutation of the 39-bit numbers before it is written out, and every
key length that `main` lets pass has room for twelve digits.
-/

namespace FluxKV.Client

open Protocol BitMixing

/-! ## The checksum -/

/-- The bits of a message in the order a reflected CRC takes them. -/
def messageBits (data : Bytes) : List Bool := data.flatMap fun b => (List.range 8).map b.toBitVec.getLsbD

/-- CRC-32 with one message bit at a time. -/
def bitwiseCrc (data : Bytes) : BitVec 32 :=
  (messageBits data).foldl (feed 0xEDB88320#32) 0xFFFFFFFF#32 ^^^ 0xFFFFFFFF#32

example : bitwiseCrc [0x31, 0x32, 0x33, 0x34, 0x35, 0x36, 0x37, 0x38, 0x39] = 0xCBF43926#32 := by decide +kernel

private theorem lowest_set_iff (c : UInt32) : c &&& 1 = 1 ↔ c.toBitVec.getLsbD 0 = true := by
  have bit : (c &&& 1).toBitVec = (BitVec.ofBool (c.toBitVec.getLsbD 0)).setWidth 32 :=
    BitVec.and_one_eq_setWidth_ofBool_getLsbD
  rw [← UInt32.toBitVec_inj, bit]
  cases c.toBitVec.getLsbD 0 <;> decide

theorem crcRound_toBitVec (c : UInt32) : (crcRound c).toBitVec = shift 0xEDB88320#32 c.toBitVec := by
  unfold crcRound shift
  simp only [lowest_set_iff]
  split <;> rfl

theorem crcTable_toBitVec (c : UInt32) : (crcTable c).toBitVec = (shift 0xEDB88320#32)^[8] c.toBitVec :=
  Function.Semiconj.iterate_right (f := UInt32.toBitVec) crcRound_toBitVec 8 c

/-- A byte through the table is its eight bits through the register. -/
theorem crcTable_step (c : UInt32) (b : UInt8) :
    (crcTable ((c ^^^ b.toUInt32) &&& 0xFF) ^^^ (c >>> 8)).toBitVec =
      ((List.range 8).map b.toBitVec.getLsbD).foldl (feed 0xEDB88320#32) c.toBitVec := by
  have bits : (List.range 8).map b.toBitVec.getLsbD = (List.range 8).map b.toUInt32.toBitVec.getLsbD := by
    refine List.map_congr_left fun i member => ?_
    have inside : i < 32 := (List.mem_range.mp member).trans (by decide)
    simp [inside]
  have clear : ∀ i, 8 ≤ i → b.toUInt32.toBitVec.getLsbD i = false := fun i above => by
    simp [BitVec.getLsbD_of_ge b.toBitVec i above]
  have gone : b.toUInt32.toBitVec >>> 8 = 0#32 :=
    BitVec.eq_of_getLsbD_eq fun i _ => by simp
  rw [bits, foldl_feed _ clear, shift_iterate_eq_lookup, BitVec.ushiftRight_xor_distrib, gone, BitVec.xor_zero,
    UInt32.toBitVec_xor, crcTable_toBitVec]
  rfl

theorem crc32_toBitVec (data : Bytes) : (crc32 data).toBitVec = bitwiseCrc data := by
  have register : ∀ c : UInt32,
      (data.foldl (fun c b => crcTable ((c ^^^ b.toUInt32) &&& 0xFF) ^^^ (c >>> 8)) c).toBitVec =
        (messageBits data).foldl (feed 0xEDB88320#32) c.toBitVec := by
    induction data with
    | nil => exact fun _ => rfl
    | cons b data ih =>
      intro c
      rw [messageBits, List.flatMap_cons, List.foldl_append, List.foldl_cons, ih, crcTable_step]
      rfl
  rw [crc32, UInt32.toBitVec_xor, register]
  rfl

/-- The client's checksum is CRC-32, and its vbucket is the one other clients compute; it stops where there are no
vbuckets to choose from. -/
theorem crc32_is_bitwise (key : Bytes) :
    (crc32 key).toBitVec = bitwiseCrc key ∧
      ∀ vbuckets : UInt16, (vbucketFor key vbuckets).map UInt16.toNat =
        if vbuckets = 0 then none
        else some (((bitwiseCrc key >>> 16) &&& 0x7FFF#32).toNat % vbuckets.toNat) := by
  have checksum := crc32_toBitVec key
  refine ⟨checksum, fun vbuckets => ?_⟩
  rw [vbucketFor, ← checksum]
  split
  · rfl
  · next some =>
    have pos : 0 < vbuckets.toNat := Nat.pos_of_ne_zero fun zero => some (UInt16.toNat_inj.mp zero)
    have fits : ((crc32 key >>> 16) &&& 0x7FFF).toNat % vbuckets.toNat < 2 ^ 16 :=
      (Nat.mod_lt _ pos).trans vbuckets.toNat_lt
    rw [Option.map_some, UInt16.toNat_ofNat_of_lt' fits]
    rfl

/-! ## Scrambled indices -/

theorem scrambleIndex_toNat (x : UInt64) : (scrambleIndex x).toNat =
    xorShift 17 (xorShift 19 (x.toNat * 0x9E3779B97F4A7C15 % 2 ^ 39) * 0xBF58476D1CE4E5B9 % 2 ^ 39) := by
  have masked : ∀ y m : UInt64, (y * m &&& ((1 : UInt64) <<< 39 - 1)).toNat = y.toNat * m.toNat % 2 ^ 39 := by
    intro y m
    have mask : ((1 : UInt64) <<< 39 - 1).toNat = 2 ^ 39 - 1 := by decide
    rw [UInt64.toNat_and, mask, Nat.and_two_pow_sub_one_eq_mod, UInt64.toNat_mul,
      Nat.mod_mod_of_dvd _ (Nat.pow_dvd_pow 2 (by decide))]
  simp only [scrambleIndex, xorShift, UInt64.toNat_xor, UInt64.toNat_shiftRight, masked]
  rfl

private theorem scramble_injOn : Set.InjOn
    (fun n => xorShift 17 (xorShift 19 (n * 0x9E3779B97F4A7C15 % 2 ^ 39) * 0xBF58476D1CE4E5B9 % 2 ^ 39))
    (Set.Iio (2 ^ 39)) := by
  have below : ∀ n : ℕ, n % 2 ^ 39 < 2 ^ 39 := fun n => Nat.mod_lt n (by decide)
  intro a small b small' same
  have second := xorShift_injective (by decide) same
  have first := mul_mod_injOn (w := 39) (by decide) (xorShift_lt 19 (below _)) (xorShift_lt 19 (below _)) second
  exact mul_mod_injOn (by decide) small small' (xorShift_injective (by decide) first)

/-- The permutation `scrambleIndex` is. -/
theorem scrambleIndex_bijOn : Set.BijOn scrambleIndex {x | x.toNat < 2 ^ 39} {x | x.toNat < 2 ^ 39} := by
  have maps : Set.MapsTo scrambleIndex {x | x.toNat < 2 ^ 39} {x | x.toNat < 2 ^ 39} := by
    intro x _
    show (scrambleIndex x).toNat < 2 ^ 39
    rw [scrambleIndex_toNat]
    exact xorShift_lt 17 (Nat.mod_lt _ (by decide))
  have finite : Set.Finite {x : UInt64 | x.toNat < 2 ^ 39} :=
    (Set.finite_lt_nat (2 ^ 39)).preimage fun _ _ _ _ => UInt64.toNat_inj.mp
  refine (finite.injOn_iff_bijOn_of_mapsTo maps).mp ?_
  intro x below y below' same
  have values := congrArg UInt64.toNat same
  rw [scrambleIndex_toNat, scrambleIndex_toNat] at values
  exact UInt64.toNat_inj.mp (scramble_injOn below below' values)

/-! ## Keys -/

/-- The number a string of digits stands for. -/
def digitsValue (digits : Bytes) : ℕ := digits.foldl (fun n b => 10 * n + (b.toNat - 48)) 0

theorem digitsValue_padded (width n : ℕ) : digitsValue (padded width n) = n % 10 ^ width := by
  induction width generalizing n with
  | zero => exact (Nat.mod_one n).symm
  | succ width ih =>
    have last : (digit n).toNat = 48 + n % 10 := UInt8.toNat_ofNat_of_lt' (by show 48 + n % 10 < 256; omega)
    rw [padded, digitsValue, List.foldl_append]
    change 10 * digitsValue (padded width (n / 10)) + ((digit n).toNat - 48) = _
    rw [ih, last, Nat.pow_succ', Nat.mod_mul, Nat.add_sub_cancel_left, Nat.add_comm]

theorem digitsValue_decimal (n : ℕ) : digitsValue (decimal n) = n := by
  have pos : 0 < (Nat.toDigits 10 n).length := Nat.length_toDigits_pos
  rw [decimal, digitsValue_padded, Nat.mod_eq_of_lt]
  exact (Nat.length_toDigits_le_iff (by decide) pos).mp le_rfl

/-- `main` stops where the key length has no room for a scrambled index. -/
def Options.refusesKeylen (opts : Options) : Bool :=
  opts.scramble && opts.keylen != 0 && decide (opts.keylen < 12)

/-- An index is read back from its key, if the key has room for it. -/
theorem keyFor_inj {opts : Options} {i j : UInt64} (room : opts.keylen = 0 ∨ 12 ≤ opts.keylen)
    (scrambled : opts.scramble = true)
    (small : (i + opts.startkey).toNat < 2 ^ 39) (small' : (j + opts.startkey).toNat < 2 ^ 39)
    (same : keyFor opts i = keyFor opts j) : i = j := by
  obtain ⟨maps, injective, _⟩ := scrambleIndex_bijOn
  simp only [keyFor, scrambled, if_true] at same
  refine (UInt64.add_left_inj opts.startkey).mp (injective small small' (UInt64.toNat_inj.mp ?_))
  rcases room with free | wide
  · rw [if_pos free, if_pos free] at same
    have digits := congrArg digitsValue (List.append_cancel_left same)
    rwa [digitsValue_decimal, digitsValue_decimal] at digits
  · have fixed : opts.keylen ≠ 0 := Nat.ne_of_gt (Nat.lt_of_lt_of_le (by decide) wide)
    have fits : ∀ x : UInt64, x.toNat < 2 ^ 39 → x.toNat < 10 ^ opts.keylen := fun x below =>
      below.trans_le ((by decide : 2 ^ 39 ≤ 10 ^ 12).trans (Nat.pow_le_pow_right (by decide) wide))
    rw [if_neg fixed, if_neg fixed] at same
    have digits := congrArg digitsValue same
    rwa [digitsValue_padded, digitsValue_padded, Nat.mod_eq_of_lt (fits _ (maps small)),
      Nat.mod_eq_of_lt (fits _ (maps small'))] at digits

/-- Scrambled keys stay distinct. -/
theorem scrambled_keys_distinct :
    Set.BijOn scrambleIndex {x | x.toNat < 2 ^ 39} {x | x.toNat < 2 ^ 39} ∧
      ∀ opts : Options, opts.scramble = true → opts.refusesKeylen = false →
        ∀ i j : UInt64, i ≠ j → (i + opts.startkey).toNat < 2 ^ 39 → (j + opts.startkey).toNat < 2 ^ 39 →
          keyFor opts i ≠ keyFor opts j := by
  refine ⟨scrambleIndex_bijOn, fun opts scrambled accepted i j apart small small' same => apart ?_⟩
  have room : opts.keylen = 0 ∨ 12 ≤ opts.keylen := by
    simp only [Options.refusesKeylen, scrambled, Bool.true_and, Bool.and_eq_false_iff, bne_eq_false_iff_eq,
      decide_eq_false_iff_not, Nat.not_lt] at accepted
    exact accepted
  exact keyFor_inj room scrambled small small' same

theorem scrambled_keys_distinct_at :
    keyFor { startkey := 100, scramble := true, keylen := 12 } 0 ≠
      keyFor { startkey := 100, scramble := true, keylen := 12 } 1 :=
  scrambled_keys_distinct.2 _ rfl rfl 0 1 (by decide) (by decide) (by decide)

end FluxKV.Client
