import FluxKV.Engine.Request
import Mathlib.Order.Defs.Unbundled

/-! # The key comparison of a sorted write batch

`executePersist` sorts a compact array of key word, length and index. The word holds the first eight
key bytes in big-endian order, zero-padded, so keys of at most eight bytes are decided by word and
length; longer ones fall back to the full keys. `less_iff` and `sameKey_iff` show that this decides
byte order with ties broken by arrival, and key equality, for keys of every length.
-/

namespace FluxKV.Engine

open Protocol BigEndian

/-- The loop of `keyPrefix` for a key shorter than eight bytes, from byte `j` on. -/
def orBytes : ℕ → UInt64 → Bytes → UInt64
  | _, p, [] => p
  | j, p, b :: rest => orBytes (j + 1) (p ||| (b.toUInt64 <<< UInt64.ofNat (56 - 8 * j))) rest

/-- First eight key bytes, big-endian. Copying eight bytes and swapping them loads them big-endian. -/
def keyPrefix (key : Bytes) : UInt64 :=
  if 8 ≤ key.length then .ofNat (beNat (key.take 8)) else orBytes 0 0 key

private theorem or_shifted_byte {p : UInt64} {high j : ℕ} (b : UInt8) (short : j < 8)
    (aligned : p.toNat = high * 256 ^ (8 - j)) :
    (p ||| (b.toUInt64 <<< UInt64.ofNat (56 - 8 * j))).toNat =
      (high * 256 + b.toNat) * 256 ^ (8 - (j + 1)) := by
  have byte : b.toNat < 256 := b.toNat_lt
  have amount : (UInt64.ofNat (56 - 8 * j)).toNat % 64 = 56 - 8 * j := by
    have fits : 56 - 8 * j < UInt64.size := Nat.lt_of_le_of_lt (Nat.sub_le ..) (by decide)
    rw [UInt64.toNat_ofNat_of_lt' fits]
    omega
  have width : 256 ^ (8 - (j + 1)) = 2 ^ (56 - 8 * j) := by
    rw [show (256 : ℕ) = 2 ^ 8 from rfl, ← Nat.pow_mul]
    congr 1
    omega
  have next : 256 ^ (8 - j) = 256 * 256 ^ (8 - (j + 1)) := by
    rw [show 8 - j = 8 - (j + 1) + 1 by omega, Nat.pow_succ, Nat.mul_comm]
  have small : b.toNat * 2 ^ (56 - 8 * j) < 2 ^ 64 := by
    calc b.toNat * 2 ^ (56 - 8 * j) ≤ b.toNat * 2 ^ 56 :=
          Nat.mul_le_mul_left _ (Nat.pow_le_pow_right (by decide) (by omega))
      _ < 2 ^ 64 := by omega
  have below : b.toNat <<< (56 - 8 * j) < 2 ^ (64 - 8 * j) := by
    rw [Nat.shiftLeft_eq, show 64 - 8 * j = 8 + (56 - 8 * j) by omega, Nat.pow_add]
    exact Nat.mul_lt_mul_of_pos_right byte (Nat.pow_pos (by decide))
  have shifted : p.toNat = high <<< (64 - 8 * j) := by
    rw [aligned, Nat.shiftLeft_eq, show (256 : ℕ) = 2 ^ 8 from rfl, ← Nat.pow_mul]
    congr 2
    omega
  rw [UInt64.toNat_or, UInt64.toNat_shiftLeft, UInt8.toNat_toUInt64, amount, Nat.shiftLeft_eq b.toNat,
    Nat.mod_eq_of_lt small, ← Nat.shiftLeft_eq b.toNat, shifted, ← Nat.shiftLeft_add_eq_or_of_lt below,
    ← shifted, aligned, next, Nat.shiftLeft_eq, width]
  ring

private theorem orBytes_toNat (rest : Bytes) (j high : ℕ) (p : UInt64) (short : j + rest.length < 8)
    (aligned : p.toNat = high * 256 ^ (8 - j)) :
    (orBytes j p rest).toNat =
      (high * 256 ^ rest.length + beNat rest) * 256 ^ (8 - (j + rest.length)) := by
  induction rest generalizing j high p with
  | nil => simpa [orBytes, beNat] using aligned
  | cons b rest ih =>
    simp only [List.length_cons] at short ⊢
    rw [orBytes, ih (j + 1) (high * 256 + b.toNat) _ (by omega) (or_shifted_byte b (by omega) aligned),
      beNat, Nat.pow_succ, show j + 1 + rest.length = j + (rest.length + 1) by omega]
    ring

/-- The word is the key's first eight bytes, padded with zero bytes. -/
theorem keyPrefix_toNat (key : Bytes) : (keyPrefix key).toNat = beNat (pad 8 key) := by
  unfold keyPrefix
  split
  · next long =>
    have bound := beNat_lt (key.take 8)
    rw [List.length_take, Nat.min_eq_left long] at bound
    rw [UInt64.toNat_ofNat_of_lt' (by simpa using bound), pad_of_le long]
  · next short =>
    have padded : pad 8 key = key ++ List.replicate (8 - key.length) 0 := by
      rw [pad, List.take_of_length_le (by omega)]
    rw [orBytes_toNat key 0 0 0 (by omega) (by simp), padded, beNat_append, beNat_replicate_zero]
    simp

/-- `struct SortKey`. The index and the length are 32-bit in the source; a key length comes from a
16-bit header field and a batch is far smaller than 2^32 requests. -/
structure SortKey where
  word : UInt64
  idx : ℕ
  len : ℕ
deriving DecidableEq, Repr

section Comparison

variable (fullKey : ℕ → Bytes)

def sortKey (i : ℕ) : SortKey := ⟨keyPrefix (fullKey i), i, (fullKey i).length⟩

def sameKey (a b : SortKey) : Bool :=
  decide (a.word = b.word ∧ a.len = b.len ∧ (a.len ≤ 8 ∨ fullKey a.idx = fullKey b.idx))

/-- The comparison handed to `std::sort`. -/
def less (a b : SortKey) : Bool :=
  if a.word ≠ b.word then decide (a.word < b.word)
  else if a.len ≤ 8 ∧ b.len ≤ 8 then
    if a.len ≠ b.len then decide (a.len < b.len) else decide (a.idx < b.idx)
  else if fullKey a.idx ≠ fullKey b.idx then decide (fullKey a.idx < fullKey b.idx)
  else decide (a.idx < b.idx)

/-- Byte order of the keys, ties broken by arrival. -/
def Before (i j : ℕ) : Prop := fullKey i < fullKey j ∨ fullKey i = fullKey j ∧ i < j

private theorem pad_eq_of_word_eq {left right : Bytes} (same : keyPrefix left = keyPrefix right) :
    pad 8 left = pad 8 right :=
  beNat_inj (by simp) (by rw [← keyPrefix_toNat, ← keyPrefix_toNat, same])

private theorem word_lt_iff (left right : Bytes) : keyPrefix left < keyPrefix right ↔ pad 8 left < pad 8 right := by
  rw [UInt64.lt_iff_toNat_lt, keyPrefix_toNat, keyPrefix_toNat, beNat_lt_iff (by simp)]

/-- Keys of one word and one length of at most eight bytes are one key. -/
theorem sameKey_iff (i j : ℕ) : sameKey fullKey (sortKey fullKey i) (sortKey fullKey j) = true ↔
    fullKey i = fullKey j := by
  rw [sameKey, decide_eq_true_eq]
  simp only [sortKey]
  constructor
  · rintro ⟨word, length, short | same⟩
    · exact eq_of_pad_eq short length (pad_eq_of_word_eq word)
    · exact same
  · intro same
    simp [same]

private theorem lt_of_word_lt {left right : Bytes} (word : keyPrefix left < keyPrefix right) :
    left < right :=
  lt_of_pad_lt ((word_lt_iff left right).mp word)

/-- The comparison on words, lengths and indices decides byte order with ties broken by index. -/
theorem less_iff (i j : ℕ) : less fullKey (sortKey fullKey i) (sortKey fullKey j) = true ↔
    Before fullKey i j := by
  by_cases word : keyPrefix (fullKey i) = keyPrefix (fullKey j)
  · have padded := pad_eq_of_word_eq word
    by_cases short : (fullKey i).length ≤ 8 ∧ (fullKey j).length ≤ 8
    · have order := lt_iff_length_lt_of_pad_eq short.1 short.2 padded
      by_cases length : (fullKey i).length = (fullKey j).length
      · have same := eq_of_pad_eq short.1 length padded
        simp [less, sortKey, Before, same, short.2]
      · have distinct : fullKey i ≠ fullKey j := fun same => length (congrArg List.length same)
        simp [less, sortKey, Before, word, short, length, distinct, order]
    · by_cases same : fullKey i = fullKey j
      · have long : ¬ (fullKey j).length ≤ 8 := fun fits => short ⟨same ▸ fits, fits⟩
        simp [less, sortKey, Before, same, long]
      · simp [less, sortKey, Before, word, same, if_neg short]
  · have distinct : fullKey i ≠ fullKey j := fun same => word (congrArg keyPrefix same)
    have order : keyPrefix (fullKey i) < keyPrefix (fullKey j) ↔ fullKey i < fullKey j := by
      refine ⟨lt_of_word_lt, fun below => ?_⟩
      rcases UInt64.lt_or_lt_of_ne word with less | more
      · exact less
      · exact absurd (lt_of_word_lt more) (List.lt_asymm below)
    simp [less, sortKey, Before, word, distinct, order]

end Comparison

/-! ## The order -/

section Order

variable {fullKey : ℕ → Bytes}

theorem Before.trichotomy (fullKey : ℕ → Bytes) (i j : ℕ) :
    Before fullKey i j ∨ i = j ∨ Before fullKey j i := by
  by_cases same : fullKey i = fullKey j
  · rcases Nat.lt_trichotomy i j with less | equal | more
    · exact .inl (.inr ⟨same, less⟩)
    · exact .inr (.inl equal)
    · exact .inr (.inr (.inr ⟨same.symm, more⟩))
  · by_cases less : fullKey i < fullKey j
    · exact .inl (.inl less)
    · refine .inr (.inr (.inl ?_))
      by_contra more
      exact same (List.le_antisymm (List.not_lt.mp more) (List.not_lt.mp less))

theorem Before.trans {i j k : ℕ} (first : Before fullKey i j) (second : Before fullKey j k) :
    Before fullKey i k := by
  rcases first with first | ⟨same, first⟩ <;> rcases second with second | ⟨same', second⟩
  · exact .inl (List.lt_trans first second)
  · exact .inl (same' ▸ first)
  · exact .inl (same ▸ second)
  · exact .inr ⟨same.trans same', first.trans second⟩

theorem Before.irrefl (i : ℕ) : ¬ Before fullKey i i := by
  rintro (less | ⟨_, less⟩)
  · exact List.lt_irrefl _ less
  · exact lt_irrefl _ less

end Order

/-- The element of the array, where both counts are cast to 32 bits. -/
def SortKey.stored (a : SortKey) : SortKey := { a with idx := a.idx % 2 ^ 32, len := a.len % 2 ^ 32 }

/-- The comparison `std::sort` is given is the byte order of the keys with ties broken by index, and with it a strict
total order of the positions. Equal keys are those the dedupe takes for one. Casting a count that fits into 32 bits
changes nothing. -/
theorem less_is_byte_order (fullKey : ℕ → Bytes) :
    (∀ i j, less fullKey (sortKey fullKey i) (sortKey fullKey j) = true ↔
      fullKey i < fullKey j ∨ fullKey i = fullKey j ∧ i < j) ∧
    IsStrictTotalOrder ℕ (fun i j => less fullKey (sortKey fullKey i) (sortKey fullKey j) = true) ∧
    (∀ i j, sameKey fullKey (sortKey fullKey i) (sortKey fullKey j) = true ↔ fullKey i = fullKey j) ∧
    ∀ i, i < 2 ^ 32 → (fullKey i).length < 2 ^ 32 → (sortKey fullKey i).stored = sortKey fullKey i := by
  refine ⟨less_iff fullKey, ?_, sameKey_iff fullKey, ?_⟩
  · simp only [less_iff]
    exact {
      irrefl := Before.irrefl
      trans := fun _ _ _ => Before.trans
      trichotomous := fun i j before after => by
        rcases Before.trichotomy fullKey i j with here | same | there
        · exact (before here).elim
        · exact same
        · exact (after there).elim }
  · intro i position length
    simp only [SortKey.stored, sortKey, Nat.mod_eq_of_lt position, Nat.mod_eq_of_lt length]

/-- Strings of zero bytes all have the word zero; the eighth and the ninth are told apart by their full keys. -/
theorem less_is_byte_order_at :
    less (fun i => List.replicate i 0) (sortKey (fun i => List.replicate i 0) 8)
      (sortKey (fun i => List.replicate i 0) 9) = true ∧
    (sortKey (fun i => List.replicate i 0) 9).stored = sortKey (fun i => List.replicate i 0) 9 := by
  obtain ⟨order, _, _, fits⟩ := less_is_byte_order fun i => List.replicate i 0
  exact ⟨(order 8 9).mpr (by decide), fits 9 (by decide) (by decide)⟩

end FluxKV.Engine
