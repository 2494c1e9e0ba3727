import FluxKV.Cache.Shard
import FluxKV.ToMathlib.Varint

/-! # How an entry lies in memory

One allocation holds an entry's header, the key it is indexed by and the value. Where the value stays in the buffer of
the request that wrote it, a pointer to it follows the key, aligned.
-/

namespace FluxKV.Cache.EntryLayout

open Protocol Varint

/-- The bytes at each address. -/
abbrev Memory := ℕ → UInt8

namespace Memory

def load (m : Memory) (addr len : ℕ) : Bytes := (List.range len).map fun i => m (addr + i)

/-- `memcpy` to the address. -/
def store (m : Memory) (addr : ℕ) (bytes : Bytes) : Memory := fun a =>
  if addr ≤ a ∧ a < addr + bytes.length then bytes.getD (a - addr) 0 else m a

variable {m : Memory} {addr : ℕ} {bytes : Bytes}

theorem load_add (addr first rest : ℕ) :
    m.load addr (first + rest) = m.load addr first ++ m.load (addr + first) rest := by
  simp only [load, List.range_add, List.map_append, List.map_map, Function.comp_def, Nat.add_assoc]

theorem store_outside {a : ℕ} (outside : a < addr ∨ addr + bytes.length ≤ a) : m.store addr bytes a = m a :=
  if_neg (by omega)

theorem load_store : (m.store addr bytes).load addr bytes.length = bytes := by
  refine List.ext_getElem (by simp [load]) fun i _ inside => ?_
  have held : addr ≤ addr + i ∧ addr + i < addr + bytes.length := by omega
  simp only [load, store, List.getElem_map, List.getElem_range, if_pos held, Nat.add_sub_cancel_left,
    List.getD_eq_getElem?_getD, List.getElem?_eq_getElem inside, Option.getD_some]

theorem load_congr {m' : Memory} {len : ℕ} (same : ∀ a, addr ≤ a → a < addr + len → m' a = m a) :
    m'.load addr len = m.load addr len :=
  List.map_congr_left fun _ inside => same _ (Nat.le_add_right ..) (Nat.add_lt_add_left (List.mem_range.mp inside) _)

end Memory

/-- `S3FifoCache::Entry`, for the fields that say where its bytes are. -/
structure Entry where
  addr : ℕ
  keyLen : UInt32
  valLen : UInt32
  shared : Bool

namespace Entry

/-- The end of the key, rounded up to a multiple of eight. -/
def extOffset (keyLen : ℕ) : ℕ := (2 + keyLen + 7) / 8 * 8

variable (m : Memory)

def data (e : Entry) : ℕ := e.addr + sizeofEntry

def mapKey (e : Entry) : Bytes := m.load e.data (2 + e.keyLen.toNat)

/-- `ext()->val`. -/
def extVal (e : Entry) : ℕ := leNat (m.load (e.data + extOffset e.keyLen.toNat + 8) 8)

def value (e : Entry) : Bytes :=
  if e.shared then m.load (e.extVal m) e.valLen.toNat else m.load (e.data + 2 + e.keyLen.toNat) e.valLen.toNat

variable (addr : ℕ) (vbid : UInt16) (key bytes : Bytes)

/-- The key as the index has it. -/
def indexKey : Bytes := leBytes 2 vbid.toNat ++ key

/-- The entry's bytes after its header: the key, and at an offset what follows it. -/
def fill (off : ℕ) (tail : Bytes) : Memory :=
  let data := addr + sizeofEntry
  ((m.store data (leBytes 2 vbid.toNat)).store (data + 2) key).store (data + off) tail

def create : Memory × Entry :=
  (fill m addr vbid key (2 + key.length) bytes, ⟨addr, .ofNat key.length, .ofNat bytes.length, false⟩)

/-- `buf` and `val` are the addresses of the request's buffer and of the value in it. -/
def createShared (buf val len : ℕ) : Memory × Entry :=
  (fill m addr vbid key (extOffset key.length) (leBytes 8 buf ++ leBytes 8 val),
    ⟨addr, .ofNat key.length, .ofNat len, true⟩)

variable {m addr vbid key bytes} {off : ℕ} {tail : Bytes}

theorem load_fill_key (after : 2 + key.length ≤ off) :
    (fill m addr vbid key off tail).load (addr + sizeofEntry) (2 + key.length) = indexKey vbid key := by
  have first : (fill m addr vbid key off tail).load (addr + sizeofEntry) 2 = leBytes 2 vbid.toNat := by
    have stored : (m.store (addr + sizeofEntry) (leBytes 2 vbid.toNat)).load (addr + sizeofEntry) 2 = _ :=
      Memory.load_store
    refine (Memory.load_congr fun a _ below => ?_).trans stored
    rw [fill, Memory.store_outside (by omega), Memory.store_outside (by omega)]
  have rest : (fill m addr vbid key off tail).load (addr + sizeofEntry + 2) key.length = key := by
    refine (Memory.load_congr fun a _ below => ?_).trans
      (Memory.load_store (m := m.store (addr + sizeofEntry) (leBytes 2 vbid.toNat)))
    rw [fill, Memory.store_outside (by omega)]
  rw [Memory.load_add, first, rest, indexKey]

theorem fill_outside (after : 2 + key.length ≤ off) {a : ℕ}
    (outside : a < addr + sizeofEntry ∨ addr + sizeofEntry + off + tail.length ≤ a) :
    fill m addr vbid key off tail a = m a := by
  have two : (leBytes 2 vbid.toNat).length = 2 := leBytes_length ..
  rw [fill, Memory.store_outside (by omega), Memory.store_outside (by omega), Memory.store_outside (by omega)]

theorem indexKey_inj {vbid' : UInt16} {key' : Bytes} (same : indexKey vbid key = indexKey vbid' key') :
    vbid = vbid' ∧ key = key' := by
  obtain ⟨ids, keys⟩ := List.append_inj same (by simp)
  have words := congrArg leNat ids
  rw [leNat_leBytes 2 vbid.toNat_lt, leNat_leBytes 2 vbid'.toNat_lt] at words
  exact ⟨UInt16.toNat_inj.mp words, keys⟩

/-- Whatever the memory held: an entry of either kind reads back as the key and the value it was made of, entries of
two documents have two keys, and nothing is written outside the allocation, so a shared value in its buffer is as it
was. -/
theorem entry_reads_back (small : key.length < 2 ^ 32) (short : bytes.length < 2 ^ 32) (buf val : ℕ)
    (pointer : val < 2 ^ 64) (held : m.load val bytes.length = bytes)
    (apart : val + bytes.length ≤ addr ∨ addr + sizeofEntry + extOffset key.length + sizeofExt ≤ val) :
    let own := create m addr vbid key bytes
    let shared := createShared m addr vbid key buf val bytes.length
    (own.2.mapKey own.1 = indexKey vbid key ∧ own.2.value own.1 = bytes ∧
      shared.2.mapKey shared.1 = indexKey vbid key ∧ shared.2.value shared.1 = bytes) ∧
    (∀ vbid' key', indexKey vbid key = indexKey vbid' key' → vbid = vbid' ∧ key = key') ∧
    ∀ a, (a < addr + sizeofEntry ∨ addr + sizeofEntry + (2 + key.length) + bytes.length ≤ a → own.1 a = m a) ∧
      (a < addr + sizeofEntry ∨ addr + sizeofEntry + extOffset key.length + sizeofExt ≤ a → shared.1 a = m a) := by
  intro own shared
  have keyLen : own.2.keyLen.toNat = key.length ∧ shared.2.keyLen.toNat = key.length :=
    and_self_iff.mpr (UInt32.toNat_ofNat_of_lt' small)
  have valLen : own.2.valLen.toNat = bytes.length ∧ shared.2.valLen.toNat = bytes.length :=
    and_self_iff.mpr (UInt32.toNat_ofNat_of_lt' short)
  have after : 2 + key.length ≤ extOffset key.length := by
    unfold extOffset
    omega
  have ext : (leBytes 8 buf ++ leBytes 8 val).length = sizeofExt := by simp [sizeofExt]
  have outside : ∀ a, a < addr + sizeofEntry ∨ addr + sizeofEntry + extOffset key.length + sizeofExt ≤ a →
      shared.1 a = m a := fun a away => fill_outside after (ext.symm ▸ away)
  have pointed : shared.2.extVal shared.1 = val := by
    have both : shared.1.load (addr + sizeofEntry + extOffset key.length) _ = _ := Memory.load_store
    rw [ext, show sizeofExt = 8 + 8 from rfl, Memory.load_add] at both
    rw [extVal, keyLen.2]
    exact (congrArg leNat (List.append_inj_right both (by simp [Memory.load]))).trans (leNat_leBytes 8 pointer)
  refine ⟨⟨?_, ?_, ?_, ?_⟩, fun _ _ => indexKey_inj, fun a => ⟨fill_outside le_rfl, outside a⟩⟩
  · rw [mapKey, keyLen.1]
    exact load_fill_key le_rfl
  · show own.1.load (own.2.data + 2 + own.2.keyLen.toNat) own.2.valLen.toNat = bytes
    rw [keyLen.1, valLen.1, Nat.add_assoc]
    exact Memory.load_store
  · rw [mapKey, keyLen.2]
    exact load_fill_key after
  · show shared.1.load (shared.2.extVal shared.1) shared.2.valLen.toNat = bytes
    rw [pointed, valLen.2]
    exact (Memory.load_congr fun a _ _ => outside a (by omega)).trans held

/-- A key of two bytes in memory that holds ones. -/
theorem entry_reads_back_ones : (create (fun _ => 1) 0 7 [2, 3] [1, 1]).2.value
    (create (fun _ => 1) 0 7 [2, 3] [1, 1]).1 = [1, 1] :=
  (entry_reads_back (by decide) (by decide) 0 200 (by decide) rfl (.inr (by decide))).1.2.1

end Entry

end FluxKV.Cache.EntryLayout
