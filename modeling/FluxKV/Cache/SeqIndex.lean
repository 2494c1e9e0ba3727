import FluxKV.Cache.S3Fifo
import FluxKV.Machine.Run

/-! # The seqno index

Beside its entries a cache shard keeps the latest applied seqno of every key it has heard of, under the
key's hash, so that a read miss can go to the store by seqno. Two flag bits share the word with the
seqno. The index is split into parts, each a hash table of its own, and stays below a cap by evicting
keys in CLOCK order. What the index relies on of the hash table is `F14`.
-/

namespace FluxKV.Cache

open Engine Counting

def kSeqnoDeleted : UInt64 := (1 : UInt64) <<< 63
def kSeqnoUsed : UInt64 := (1 : UInt64) <<< 62
def kSeqnoFlags : UInt64 := kSeqnoDeleted ||| kSeqnoUsed
def kSeqParts : ℕ := 64

/-- `struct SeqEntry`. -/
structure SeqEntry where
  seqno : UInt64
  valuePtr : UInt64
deriving DecidableEq, Repr

/-- An entry without its used bit: what a call can learn of it. -/
structure SeqView where
  seqno : UInt64
  deleted : Bool
  valuePtr : UInt64
deriving DecidableEq, Repr

namespace SeqView

/-- A key that the index does not hold. -/
def blank : SeqView := ⟨0, false, 0⟩

/-- A note supersedes an older seqno, or the same one when it notes it as deleted. -/
def raise (w : SeqView) (seqno : UInt64) (deleted : Bool) (valuePtr : UInt64) : SeqView :=
  if w.seqno < seqno ∨ seqno = w.seqno ∧ deleted = true then ⟨seqno, deleted, if deleted then 0 else valuePtr⟩
  else if seqno = w.seqno ∧ valuePtr ≠ 0 ∧ w.deleted = false then { w with valuePtr }
  else w

/-- A report is for the version that the index holds, or nothing changes. -/
def point (w : SeqView) (seqno valuePtr : UInt64) : SeqView :=
  if w.seqno = seqno ∧ w.deleted = false then { w with valuePtr } else w

/-- The hint and the location for a key. -/
def hint (w : SeqView) : UInt64 × UInt64 := if w.deleted then (0, 0) else (w.seqno, w.valuePtr)

end SeqView

namespace SeqEntry

/-- The seqno without its flags. -/
def current (v : SeqEntry) : UInt64 := v.seqno &&& ~~~kSeqnoFlags

def deleted (v : SeqEntry) : Bool := v.seqno &&& kSeqnoDeleted != 0

def used (v : SeqEntry) : Bool := v.seqno &&& kSeqnoUsed != 0

def clear (v : SeqEntry) : SeqEntry := { v with seqno := v.seqno &&& ~~~kSeqnoUsed }

def use (v : SeqEntry) : SeqEntry := { v with seqno := v.seqno ||| kSeqnoUsed }

/-- What a note supersedes: an older seqno, or the same one when it is noted as deleted. -/
def Yields (v : SeqEntry) (seqno : UInt64) (deleted : Bool) : Prop :=
  v.current < seqno ∨ seqno = v.current ∧ deleted = true

instance (v : SeqEntry) (seqno : UInt64) (deleted : Bool) : Decidable (v.Yields seqno deleted) :=
  inferInstanceAs (Decidable (_ ∨ _ ∧ _))

/-- The entry after a note: the seqno is only ever raised. -/
def raise (v : SeqEntry) (seqno : UInt64) (deleted : Bool) (valuePtr : UInt64) : SeqEntry :=
  if v.Yields seqno deleted then
    { seqno := (if deleted then seqno ||| kSeqnoDeleted else seqno) ||| (v.seqno &&& kSeqnoUsed)
      valuePtr := if deleted then 0 else valuePtr }
  else if seqno = v.current ∧ valuePtr ≠ 0 ∧ v.deleted = false then { v with valuePtr }
  else v

private theorem or_and (a b c : UInt64) : (a ||| b) &&& c = a &&& c ||| b &&& c := by
  apply UInt64.toNat_inj.mp
  simp only [UInt64.toNat_or, UInt64.toNat_and, Nat.and_or_distrib_right]

private theorem and_low {seqno : UInt64} (low : seqno.toNat < 2 ^ 62) : seqno &&& ~~~kSeqnoFlags = seqno := by
  apply UInt64.toNat_inj.mp
  rw [UInt64.toNat_and, show (~~~kSeqnoFlags).toNat = 2 ^ 62 - 1 from rfl, Nat.and_two_pow_sub_one_eq_mod,
    Nat.mod_eq_of_lt low]

private theorem and_deleted_low {seqno : UInt64} (low : seqno.toNat < 2 ^ 62) : seqno &&& kSeqnoDeleted = 0 := by
  rw [← and_low low, UInt64.and_assoc, show ~~~kSeqnoFlags &&& kSeqnoDeleted = 0 by decide, UInt64.and_zero]

@[simp] theorem current_clear (v : SeqEntry) : v.clear.current = v.current := by
  rw [current, clear, UInt64.and_assoc, show ~~~kSeqnoUsed &&& ~~~kSeqnoFlags = ~~~kSeqnoFlags by decide, current]

@[simp] theorem deleted_clear (v : SeqEntry) : v.clear.deleted = v.deleted := by
  rw [deleted, clear, UInt64.and_assoc, show ~~~kSeqnoUsed &&& kSeqnoDeleted = kSeqnoDeleted by decide, deleted]

@[simp] theorem current_use (v : SeqEntry) : v.use.current = v.current := by
  rw [current, use, or_and, show kSeqnoUsed &&& ~~~kSeqnoFlags = 0 by decide, UInt64.or_zero, current]

@[simp] theorem deleted_use (v : SeqEntry) : v.use.deleted = v.deleted := by
  rw [deleted, use, or_and, show kSeqnoUsed &&& kSeqnoDeleted = 0 by decide, UInt64.or_zero, deleted]

@[simp] theorem current_default : (⟨0, 0⟩ : SeqEntry).current = 0 := by decide

def view (v : SeqEntry) : SeqView := ⟨v.current, v.deleted, v.valuePtr⟩

@[simp] theorem view_use (v : SeqEntry) : v.use.view = v.view := by
  rw [view, current_use, deleted_use]
  rfl

@[simp] theorem view_default : (⟨0, 0⟩ : SeqEntry).view = .blank := by decide

/-- A word without its used bit is a plain seqno exactly if it has that seqno and is not deleted. -/
theorem unused_eq_iff (v : SeqEntry) {seqno : UInt64} (low : seqno.toNat < 2 ^ 62) :
    v.seqno &&& ~~~kSeqnoUsed = seqno ↔ v.current = seqno ∧ v.deleted = false := by
  have split : v.seqno &&& ~~~kSeqnoUsed = v.current ||| v.seqno &&& kSeqnoDeleted := by
    rw [show ~~~kSeqnoUsed = ~~~kSeqnoFlags ||| kSeqnoDeleted by decide, UInt64.and_comm, or_and, current,
      UInt64.and_comm, UInt64.and_comm kSeqnoDeleted]
  constructor
  · rintro rfl
    have live := and_deleted_low low
    rw [UInt64.and_assoc, show ~~~kSeqnoUsed &&& kSeqnoDeleted = kSeqnoDeleted by decide] at live
    refine ⟨?_, ?_⟩
    · rw [split, live, UInt64.or_zero]
    · rw [deleted, live, bne_self_eq_false]
  · rintro ⟨rfl, live⟩
    rw [split, bne_eq_false_iff_eq.mp live, UInt64.or_zero]

/-- The word a note writes holds its seqno, its deleted bit, and the used bit there was. -/
private theorem word_spec {seqno : UInt64} (low : seqno.toNat < 2 ^ 62) (deleted : Bool) (old ptr : UInt64) :
    let v : SeqEntry := ⟨(if deleted then seqno ||| kSeqnoDeleted else seqno) ||| (old &&& kSeqnoUsed), ptr⟩
    v.current = seqno ∧ v.deleted = deleted := by
  have used : old &&& kSeqnoUsed &&& ~~~kSeqnoFlags = 0 := by
    rw [UInt64.and_assoc, show kSeqnoUsed &&& ~~~kSeqnoFlags = 0 by decide, UInt64.and_zero]
  have apart : old &&& kSeqnoUsed &&& kSeqnoDeleted = 0 := by
    rw [UInt64.and_assoc, show kSeqnoUsed &&& kSeqnoDeleted = 0 by decide, UInt64.and_zero]
  cases deleted with
  | false =>
    simp only [current, SeqEntry.deleted, Bool.false_eq_true, if_false, or_and, used, apart, and_low low,
      and_deleted_low low, UInt64.or_zero, bne_self_eq_false, and_self]
  | true =>
    simp only [current, SeqEntry.deleted, if_true, or_and, used, apart, and_low low, and_deleted_low low,
      UInt64.or_zero, show kSeqnoDeleted &&& ~~~kSeqnoFlags = 0 by decide, UInt64.and_self, UInt64.zero_or, true_and]
    decide

/-- A note acts on what can be seen of an entry. -/
theorem view_raise (v : SeqEntry) {seqno : UInt64} (low : seqno.toNat < 2 ^ 62) (deleted : Bool) (ptr : UInt64) :
    (v.raise seqno deleted ptr).view = v.view.raise seqno deleted ptr := by
  unfold raise SeqView.raise
  rcases Decidable.em (v.Yields seqno deleted) with yields | holds
  · obtain ⟨current, bit⟩ := word_spec low deleted v.seqno (if deleted then 0 else ptr)
    rw [if_pos yields]
    exact (by rw [view, current, bit] : _ = SeqView.mk ..).trans (if_pos yields).symm
  · rw [if_neg holds]
    refine Eq.trans ?_ (if_neg holds).symm
    rw [apply_ite view]
    rfl

/-- A note takes the entry over, or leaves its seqno and its deleted bit alone. -/
theorem raise_spec (v : SeqEntry) {seqno : UInt64} (low : seqno.toNat < 2 ^ 62) (deleted : Bool) (ptr : UInt64) :
    if v.Yields seqno deleted then
      (v.raise seqno deleted ptr).current = seqno ∧ (v.raise seqno deleted ptr).deleted = deleted
    else (v.raise seqno deleted ptr).current = v.current ∧ (v.raise seqno deleted ptr).deleted = v.deleted := by
  unfold raise
  by_cases yields : v.Yields seqno deleted
  · simp only [if_pos yields]
    exact word_spec low deleted _ _
  · simp only [if_neg yields]
    split <;> exact ⟨rfl, rfl⟩

/-- The first note of a key is what it holds. -/
theorem raise_default {seqno : UInt64} (low : seqno.toNat < 2 ^ 62) (deleted : Bool) (ptr : UInt64) :
    (raise ⟨0, 0⟩ seqno deleted ptr).current = seqno ∧ (raise ⟨0, 0⟩ seqno deleted ptr).deleted = deleted := by
  have spec := raise_spec ⟨0, 0⟩ low deleted ptr
  split at spec
  · exact spec
  · next holds =>
    simp only [Yields, current_default, not_or, not_and, Bool.not_eq_true] at holds
    have zero : seqno = 0 := UInt64.le_zero_iff.mp (UInt64.not_lt.mp holds.1)
    rw [spec.1, spec.2, zero, holds.2 zero]
    decide

/-- A note raises the seqno to at least its own. -/
theorem le_current_raise (v : SeqEntry) {seqno : UInt64} (low : seqno.toNat < 2 ^ 62) (deleted : Bool)
    (ptr : UInt64) : v.current ≤ (v.raise seqno deleted ptr).current ∧ seqno ≤ (v.raise seqno deleted ptr).current := by
  have spec := v.raise_spec low deleted ptr
  split at spec
  · next yields =>
    rw [spec.1]
    rcases yields with less | ⟨same, _⟩
    · exact ⟨UInt64.le_of_lt less, UInt64.le_refl _⟩
    · exact ⟨same ▸ UInt64.le_refl _, UInt64.le_refl _⟩
  · next holds =>
    rw [spec.1]
    exact ⟨UInt64.le_refl _, UInt64.not_lt.mp fun less => holds (.inl less)⟩

end SeqEntry

/-- What the index relies on of `folly::F14FastMap`: its keys in the order of iteration, whatever that is,
the buckets it has, and what it has allocated. -/
structure F14 (L : Type*) where
  empty : L
  keys : L → List UInt64
  bucketCount : L → ℕ
  allocated : L → ℕ
  emplace : L → UInt64 → L
  erase : L → UInt64 → L
  keys_empty : keys empty = []
  mem_emplace : ∀ l h h', h' ∈ keys (emplace l h) ↔ h' = h ∨ h' ∈ keys l
  mem_erase : ∀ l h h', h' ∈ keys (erase l h) ↔ h' ∈ keys l ∧ h' ≠ h

/-- `struct SeqPart`. `entry` is what the map holds under the keys it has. -/
structure SeqPart (L : Type*) where
  map : L
  entry : UInt64 → SeqEntry
  bytes : ℕ
  hand : UInt64
  handSet : Bool

namespace SeqPart

variable {L : Type*} (F : F14 L)

def empty : SeqPart L := ⟨F.empty, fun _ => ⟨0, 0⟩, 0, 0, false⟩

/-- What the map holds under a hash. -/
def lookup (p : SeqPart L) (h : UInt64) : Option SeqEntry := if h ∈ F.keys p.map then some (p.entry h) else none

/-- The position after the end is the first one. -/
def wrap (keys : List UInt64) (it : ℕ) : ℕ := if it = keys.length then 0 else it

/-- The scan of `evictSeq` from the position `it`, where the length of `keys` is the end. -/
def clock (keys : List UInt64) : ℕ → (UInt64 → SeqEntry) → ℕ → (UInt64 → SeqEntry) × ℕ
  | 0, entry, it => (entry, it)
  | n + 1, entry, it =>
    let h := keys.getD (wrap keys it) 0
    if (entry h).used then clock keys n (Function.update entry h (entry h).clear) (wrap keys it + 1)
    else (entry, wrap keys it)

/-- `evictSeq`, its counter apart. -/
def evict (p : SeqPart L) : SeqPart L :=
  let keys := F.keys p.map
  let scanned := clock keys 64 p.entry (if p.handSet then keys.idxOf p.hand else keys.length)
  let it := wrap keys scanned.2
  let next := keys[it + 1]?
  { p with
    map := F.erase p.map (keys.getD it 0)
    entry := scanned.1
    hand := next.getD p.hand
    handSet := next.isSome }

/-- A new key, with its allocation noted. -/
def emplace (p : SeqPart L) (h : UInt64) : SeqPart L :=
  { p with
    map := F.emplace p.map h
    entry := Function.update p.entry h ⟨0, 0⟩
    bytes := F.allocated (F.emplace p.map h) }

def write (p : SeqPart L) (h : UInt64) (v : SeqEntry) : SeqPart L := { p with entry := Function.update p.entry h v }

/-- The entries may lose their used bits and nothing else. -/
def Passes (before after : UInt64 → SeqEntry) : Prop :=
  ∀ h, (after h).current = (before h).current ∧ (after h).deleted = (before h).deleted

theorem clock_passes (keys : List UInt64) (n : ℕ) :
    ∀ (entry : UInt64 → SeqEntry) (it : ℕ), Passes entry (clock keys n entry it).1 := by
  induction n with
  | zero => exact fun _ _ _ => ⟨rfl, rfl⟩
  | succ n ih =>
    intro entry it h
    unfold clock
    dsimp only
    split
    · obtain ⟨current, deleted⟩ := ih (Function.update entry _ _) _ h
      rw [current, deleted]
      rcases eq_or_ne h (keys.getD (wrap keys it) 0) with rfl | other
      · simp only [Function.update_self, SeqEntry.current_clear, SeqEntry.deleted_clear, and_self]
      · simp only [Function.update_of_ne other, and_self]
    · exact ⟨rfl, rfl⟩

theorem clock_valuePtr (keys : List UInt64) (n : ℕ) :
    ∀ (entry : UInt64 → SeqEntry) (it : ℕ) (h : UInt64), ((clock keys n entry it).1 h).valuePtr = (entry h).valuePtr := by
  induction n with
  | zero => exact fun _ _ _ => rfl
  | succ n ih =>
    intro entry it h
    unfold clock
    dsimp only
    split
    · rw [ih, Function.update_apply]
      split
      · next same => rw [same, SeqEntry.clear]
      · rfl
    · rfl

theorem lookup_eq_none {p : SeqPart L} {h : UInt64} : p.lookup F h = none ↔ h ∉ F.keys p.map := by
  unfold lookup
  split <;> simp_all

theorem lookup_eq_some {p : SeqPart L} {h : UInt64} {v : SeqEntry} :
    p.lookup F h = some v ↔ h ∈ F.keys p.map ∧ p.entry h = v := by
  unfold lookup
  split <;> simp_all

theorem lookup_write {p : SeqPart L} {h : UInt64} (member : h ∈ F.keys p.map) (v : SeqEntry) (h' : UInt64) :
    (p.write h v).lookup F h' = if h' = h then some v else p.lookup F h' := by
  simp only [lookup, write, Function.update_apply]
  split_ifs <;> simp_all

theorem lookup_emplace (p : SeqPart L) (h h' : UInt64) :
    (p.emplace F h).lookup F h' = if h' = h then some ⟨0, 0⟩ else p.lookup F h' := by
  simp only [lookup, emplace, Function.update_apply, F.mem_emplace]
  split_ifs <;> simp_all

/-- An eviction drops entries and clears used bits. -/
theorem lookup_evict {p : SeqPart L} {h : UInt64} {v : SeqEntry} (kept : (p.evict F).lookup F h = some v) :
    ∃ v', p.lookup F h = some v' ∧ v.view = v'.view := by
  obtain ⟨member, rfl⟩ := (lookup_eq_some F).mp kept
  obtain ⟨current, deleted⟩ : _ ∧ _ := clock_passes _ _ _ _ h
  refine ⟨p.entry h, (lookup_eq_some F).mpr ⟨((F.mem_erase _ _ _).mp member).1, rfl⟩, ?_⟩
  exact SeqView.mk.injEq .. ▸ ⟨current, deleted, clock_valuePtr _ _ _ _ h⟩

end SeqPart

/-- The seqno index of one shard. -/
structure SeqShard (L : Type*) where
  parts : ℕ → SeqPart L
  seqCap : ℕ
  seqBytes : ℕ
  seqEvictions : ℕ
  seqRejected : ℕ

def partOf (h : UInt64) : ℕ := (h >>> 40).toNat % kSeqParts

namespace SeqShard

variable {L : Type*} (F : F14 L)

def empty (cap : ℕ) : SeqShard L := ⟨fun _ => .empty F, cap, 0, 0, 0⟩

def part (s : SeqShard L) (h : UInt64) : SeqPart L := s.parts (partOf h)

def setPart (s : SeqShard L) (h : UInt64) (p : SeqPart L) : SeqShard L :=
  { s with parts := Function.update s.parts (partOf h) p }

/-- What the index holds under a hash. -/
def lookup (s : SeqShard L) (h : UInt64) : Option SeqEntry := (s.part h).lookup F h

/-- A full part doubles on insertion, with both of its tables live while it moves. -/
def seqFits (s : SeqShard L) (p : SeqPart L) : Prop :=
  s.seqCap = 0 ∨
    s.seqBytes + (if F.bucketCount p.map ≤ (F.keys p.map).length then 2 * p.bytes else 0) ≤ s.seqCap

instance (s : SeqShard L) (p : SeqPart L) : Decidable (s.seqFits F p) := inferInstanceAs (Decidable (_ ∨ _))

def evictSeq (s : SeqShard L) (h : UInt64) : SeqShard L :=
  { s.setPart h ((s.part h).evict F) with seqEvictions := s.seqEvictions + 1 }

def reject (s : SeqShard L) : SeqShard L := { s with seqRejected := s.seqRejected + 1 }

/-- Insert a key that is not there, with its first note. -/
def insert (s : SeqShard L) (h seqno : UInt64) (deleted : Bool) (valuePtr : UInt64) : SeqShard L :=
  let p := (s.part h).emplace F h
  { s.setPart h (p.write h (SeqEntry.raise ⟨0, 0⟩ seqno deleted valuePtr)) with
    seqBytes := s.seqBytes + p.bytes - (s.part h).bytes }

def noteSeqno (s : SeqShard L) (h seqno : UInt64) (deleted : Bool) (valuePtr : UInt64) (admits : Bool) : SeqShard L :=
  let p := s.part h
  if h ∈ F.keys p.map then s.setPart h (p.write h ((p.entry h).raise seqno deleted valuePtr))
  else if admits = false ∧ 0 < s.seqEvictions then s.reject
  else if s.seqFits F p then s.insert F h seqno deleted valuePtr
  else if F.keys p.map = [] then s.reject
  else (s.evictSeq F h).insert F h seqno deleted valuePtr

def noteValuePtr (s : SeqShard L) (h seqno valuePtr : UInt64) : SeqShard L :=
  let p := s.part h
  if h ∈ F.keys p.map ∧ (p.entry h).seqno &&& ~~~kSeqnoUsed = seqno then
    s.setPart h (p.write h { p.entry h with valuePtr })
  else s

/-- The index after `SeqnoHint`, what it returns and the location it reports. -/
def seqnoHint (s : SeqShard L) (h : UInt64) : SeqShard L × UInt64 × UInt64 :=
  let p := s.part h
  if h ∈ F.keys p.map ∧ (p.entry h).deleted = false then
    (s.setPart h (p.write h (p.entry h).use), (p.entry h).current, (p.entry h).valuePtr)
  else (s, 0, 0)

theorem lookup_setPart (s : SeqShard L) (h h' : UInt64) (p : SeqPart L) :
    (s.setPart h p).lookup F h' = if partOf h' = partOf h then p.lookup F h' else s.lookup F h' := by
  simp only [lookup, part, setPart, Function.update_apply]
  split_ifs <;> rfl

/-- A change of the part that shows under its hash only. -/
theorem lookup_setPart_of_part {s : SeqShard L} {h : UInt64} {p : SeqPart L} {v : Option SeqEntry}
    (here : ∀ h', p.lookup F h' = if h' = h then v else (s.part h).lookup F h') (h' : UInt64) :
    (s.setPart h p).lookup F h' = if h' = h then v else s.lookup F h' := by
  rw [lookup_setPart]
  split
  · next same => rw [here, lookup, part, part, same]
  · next apart =>
    rw [if_neg]
    rintro rfl
    exact apart rfl

end SeqShard

end FluxKV.Cache
