import FluxKV.Cache.SeqHistory

/-! # The memory of the seqno index

A part of the index that is full doubles on the next insertion, with both of its tables live while the entries move.
A note is let in only if that peak stays within the cap; otherwise the part gives up an entry first, and then has
room for one without growing. A part that has no table yet is the only one that can pass the cap, by its first table.
-/

namespace FluxKV.Cache

open Engine Machine Counting

/-- How the hash table allocates: on an insertion into a full table, a first table of at most `first` bytes and then
at most twice the one before; never less. -/
structure F14.Growth {L : Type*} (F : F14 L) (first : ℕ) : Prop where
  nodup : ∀ l, (F.keys l).Nodup
  size_le : ∀ l, (F.keys l).length ≤ F.bucketCount l
  allocated_empty : F.allocated F.empty = 0
  of_roomy : ∀ l h, (F.keys l).length < F.bucketCount l → F.allocated (F.emplace l h) = F.allocated l
  never_shrinks : ∀ l h, F.allocated l ≤ F.allocated (F.emplace l h)
  first_table : ∀ l h, F.allocated l = 0 → F.allocated (F.emplace l h) ≤ first
  doubles : ∀ l h, 0 < F.allocated l → F.allocated (F.emplace l h) ≤ 2 * F.allocated l
  erase_keeps : ∀ l h, F.allocated (F.erase l h) = F.allocated l ∧ F.bucketCount (F.erase l h) = F.bucketCount l

variable {L : Type*} {F : F14 L} {first : ℕ}

namespace F14.Growth

theorem length_emplace (growth : F.Growth first) {l : L} {h : UInt64} (fresh : h ∉ F.keys l) :
    (F.keys (F.emplace l h)).length = (F.keys l).length + 1 := by
  have perm : (F.keys (F.emplace l h)).Perm (h :: F.keys l) := by
    refine (List.perm_ext_iff_of_nodup (growth.nodup _) (List.nodup_cons.mpr ⟨fresh, growth.nodup l⟩)).mpr fun h' => ?_
    rw [F.mem_emplace, List.mem_cons]
  exact perm.length_eq

theorem length_erase (growth : F.Growth first) {l : L} {h : UInt64} (member : h ∈ F.keys l) :
    (F.keys (F.erase l h)).length + 1 = (F.keys l).length := by
  have perm : (h :: F.keys (F.erase l h)).Perm (F.keys l) := by
    have gone : h ∉ F.keys (F.erase l h) := fun there => ((F.mem_erase l h h).mp there).2 rfl
    refine (List.perm_ext_iff_of_nodup (List.nodup_cons.mpr ⟨gone, growth.nodup _⟩) (growth.nodup l)).mpr fun h' => ?_
    rw [List.mem_cons, F.mem_erase]
    constructor
    · rintro (rfl | ⟨there, _⟩)
      · exact member
      · exact there
    · intro there
      rcases eq_or_ne h' h with same | other
      · exact .inl same
      · exact .inr ⟨there, other⟩
  exact perm.length_eq

end F14.Growth

namespace SeqPart

theorem wrap_lt {keys : List UInt64} (some : keys ≠ []) {it : ℕ} (inside : it ≤ keys.length) :
    wrap keys it < keys.length := by
  have positive := List.length_pos_iff.mpr some
  unfold wrap
  split <;> omega

theorem clock_le {keys : List UInt64} (some : keys ≠ []) (n : ℕ) :
    ∀ (entry : UInt64 → SeqEntry) (it : ℕ), it ≤ keys.length → (clock keys n entry it).2 ≤ keys.length := by
  induction n with
  | zero => exact fun _ _ inside => inside
  | succ n ih =>
    intro entry it inside
    have bound := wrap_lt some inside
    unfold clock
    dsimp only
    split
    · exact ih _ _ bound
    · exact bound.le

/-- An eviction erases a key that is there. -/
theorem evict_map (p : SeqPart L) (some : F.keys p.map ≠ []) :
    ∃ h ∈ F.keys p.map, (p.evict F).map = F.erase p.map h := by
  have from_hand : (if p.handSet then (F.keys p.map).idxOf p.hand else (F.keys p.map).length) ≤
      (F.keys p.map).length := by
    split
    · exact List.idxOf_le_length
    · exact le_rfl
  have inside := wrap_lt some (clock_le some 64 p.entry _ from_hand)
  refine ⟨_, ?_, rfl⟩
  rw [List.getD_eq_getElem?_getD, List.getElem?_eq_getElem inside, Option.getD_some]
  exact List.getElem_mem inside

end SeqPart

theorem partOf_mem (h : UInt64) : partOf h ∈ Finset.range kSeqParts :=
  Finset.mem_range.mpr (Nat.mod_lt _ (by decide))

namespace SeqShard

/-- The entries of all parts. -/
def entries (F : F14 L) (s : SeqShard L) : ℕ := ∑ i ∈ Finset.range kSeqParts, (F.keys (s.parts i).map).length

/-- What all parts have allocated. -/
def allocated (F : F14 L) (s : SeqShard L) : ℕ := ∑ i ∈ Finset.range kSeqParts, F.allocated (s.parts i).map

/-- The counters are right, and within the cap and a first table. -/
structure Ledger (F : F14 L) (first : ℕ) (s : SeqShard L) : Prop where
  capped : 0 < s.seqCap
  bytes : ∀ i, (s.parts i).bytes = F.allocated (s.parts i).map
  total : s.seqBytes = s.allocated F
  bound : s.seqBytes ≤ s.seqCap + first

/-- The two shards differ in the entries only. -/
structure Alike (s t : SeqShard L) : Prop where
  map : ∀ i, (t.parts i).map = (s.parts i).map
  bytes : ∀ i, (t.parts i).bytes = (s.parts i).bytes
  seqCap : t.seqCap = s.seqCap
  seqBytes : t.seqBytes = s.seqBytes
  seqEvictions : t.seqEvictions = s.seqEvictions

/-- If inserting the hash allocates, the old table and the new fit. -/
def Peak (F : F14 L) (first : ℕ) (s : SeqShard L) (h : UInt64) : Prop :=
  F.allocated (F.emplace (s.part h).map h) ≠ F.allocated (s.part h).map →
    s.seqBytes + F.allocated (F.emplace (s.part h).map h) ≤ s.seqCap + first

variable {s t : SeqShard L} {h seqno valuePtr : UInt64} {deleted : Bool}

theorem Alike.refl (s : SeqShard L) : Alike s s := ⟨fun _ => rfl, fun _ => rfl, rfl, rfl, rfl⟩

theorem Alike.write (s : SeqShard L) (h : UInt64) (v : SeqEntry) : Alike s (s.setPart h ((s.part h).write h v)) :=
  ⟨forall_update (P := fun i (p : SeqPart L) => p.map = (s.parts i).map) rfl fun _ => rfl,
    forall_update (P := fun i (p : SeqPart L) => p.bytes = (s.parts i).bytes) rfl fun _ => rfl, rfl, rfl, rfl⟩

theorem Alike.entries (alike : Alike s t) : t.entries F = s.entries F := by
  unfold SeqShard.entries
  simp only [alike.map]

theorem Ledger.alike (ledger : s.Ledger F first) (alike : Alike s t) : t.Ledger F first := by
  refine ⟨alike.seqCap ▸ ledger.capped, fun i => ?_, ?_, ?_⟩
  · rw [alike.bytes, alike.map, ledger.bytes]
  · rw [alike.seqBytes, ledger.total]
    unfold allocated
    simp only [alike.map]
  · rw [alike.seqBytes, alike.seqCap]
    exact ledger.bound

/-- What a note does. -/
theorem noteSeqno_cases (s : SeqShard L) (h seqno : UInt64) (deleted : Bool) (valuePtr : UInt64) (admits : Bool) :
    let t := s.noteSeqno F h seqno deleted valuePtr admits
    Alike s t ∧ (h ∈ F.keys (s.part h).map ↔ h ∈ F.keys (t.part h).map) ∨
      h ∉ F.keys (s.part h).map ∧
        (s.seqFits F (s.part h) ∧ t = s.insert F h seqno deleted valuePtr ∨
          F.keys (s.part h).map ≠ [] ∧ t = (s.evictSeq F h).insert F h seqno deleted valuePtr) := by
  intro t
  have same : ∀ u, t = u → Alike s u → Alike s t ∧ (h ∈ F.keys (s.part h).map ↔ h ∈ F.keys (t.part h).map) := by
    rintro u rfl alike
    exact ⟨alike, by rw [part, part, alike.map]⟩
  have shape : t = s.noteSeqno F h seqno deleted valuePtr admits := rfl
  unfold noteSeqno at shape
  dsimp only at shape
  split_ifs at shape with member shut fits vacant
  · exact .inl (same _ shape (.write s h _))
  · exact .inl (same _ shape ⟨fun _ => rfl, fun _ => rfl, rfl, rfl, rfl⟩)
  · exact .inr ⟨member, .inl ⟨fits, shape⟩⟩
  · exact .inl (same _ shape ⟨fun _ => rfl, fun _ => rfl, rfl, rfl, rfl⟩)
  · exact .inr ⟨member, .inr ⟨vacant, shape⟩⟩

theorem Ledger.part_bytes (ledger : s.Ledger F first) (h : UInt64) : (s.part h).bytes = F.allocated (s.part h).map :=
  ledger.bytes _

/-- A part that fits may double, or take its first table. -/
theorem Ledger.peak (ledger : s.Ledger F first) (growth : F.Growth first) (fits : s.seqFits F (s.part h)) :
    s.Peak F first h := by
  intro grows
  have full : F.bucketCount (s.part h).map ≤ (F.keys (s.part h).map).length :=
    not_lt.mp fun roomy => grows (growth.of_roomy _ _ roomy)
  have room := fits.resolve_left ledger.capped.ne'
  rw [if_pos full, ledger.part_bytes] at room
  rcases Nat.eq_zero_or_pos (F.allocated (s.part h).map) with none | some
  · have table := growth.first_table _ h none
    omega
  · have table := growth.doubles _ h some
    omega

/-- Replacing a part, as the sums over all parts see it. -/
theorem sum_setPart (weight : SeqPart L → ℕ) (s : SeqShard L) (h : UInt64) (p : SeqPart L) :
    ∑ i ∈ Finset.range kSeqParts, weight ((s.setPart h p).parts i) + weight (s.part h) =
      ∑ i ∈ Finset.range kSeqParts, weight (s.parts i) + weight p :=
  sum_update_add weight s.parts (partOf_mem h) p

theorem allocated_insert (s : SeqShard L) (h seqno : UInt64) (deleted : Bool) (valuePtr : UInt64) :
    (s.insert F h seqno deleted valuePtr).allocated F + F.allocated (s.part h).map =
      s.allocated F + F.allocated (F.emplace (s.part h).map h) :=
  sum_setPart (fun p => F.allocated p.map) s h _

theorem Ledger.insert (ledger : s.Ledger F first) (growth : F.Growth first) (peak : s.Peak F first h) :
    (s.insert F h seqno deleted valuePtr).Ledger F first := by
  have larger := growth.never_shrinks (s.part h).map h
  have sum := allocated_insert (F := F) s h seqno deleted valuePtr
  have total := ledger.total
  have charged : (s.insert F h seqno deleted valuePtr).seqBytes =
      s.seqBytes + F.allocated (F.emplace (s.part h).map h) - F.allocated (s.part h).map := by
    rw [← ledger.part_bytes]
    rfl
  refine ⟨ledger.capped, ?_, ?_, ?_⟩
  · exact forall_update (P := fun _ (p : SeqPart L) => p.bytes = F.allocated p.map) rfl ledger.bytes
  · omega
  · have bound := ledger.bound
    have cap : (s.insert F h seqno deleted valuePtr).seqCap = s.seqCap := rfl
    rcases eq_or_ne (F.allocated (F.emplace (s.part h).map h)) (F.allocated (s.part h).map) with same | grows
    · omega
    · have both := peak grows
      omega

theorem entries_insert (growth : F.Growth first) (fresh : h ∉ F.keys (s.part h).map) :
    (s.insert F h seqno deleted valuePtr).entries F = s.entries F + 1 := by
  have sum := sum_setPart (fun p => (F.keys p.map).length) s h
    (((s.part h).emplace F h).write h (SeqEntry.raise ⟨0, 0⟩ seqno deleted valuePtr))
  change (s.insert F h seqno deleted valuePtr).entries F + (F.keys (s.part h).map).length =
    s.entries F + (F.keys (F.emplace (s.part h).map h)).length at sum
  rw [growth.length_emplace fresh] at sum
  omega

/-- What an eviction does to the tables. -/
theorem evictSeq_map (s : SeqShard L) (some : F.keys (s.part h).map ≠ []) :
    ∃ victim ∈ F.keys (s.part h).map, ((s.evictSeq F h).part h).map = F.erase (s.part h).map victim ∧
      ∀ i ≠ partOf h, (s.evictSeq F h).parts i = s.parts i := by
  obtain ⟨victim, member, erased⟩ := (s.part h).evict_map some
  refine ⟨victim, member, ?_, fun i other => Function.update_of_ne other ..⟩
  have here : (s.evictSeq F h).part h = (s.part h).evict F := Function.update_self ..
  rw [here]
  exact erased

theorem Ledger.evictSeq (ledger : s.Ledger F first) (growth : F.Growth first) (some : F.keys (s.part h).map ≠ []) :
    (s.evictSeq F h).Ledger F first ∧ (s.evictSeq F h).Peak F first h ∧
      ∀ i, F.allocated ((s.evictSeq F h).parts i).map = F.allocated (s.parts i).map := by
  obtain ⟨victim, member, erased, others⟩ := s.evictSeq_map some
  have kept := growth.erase_keeps (s.part h).map victim
  have same : ∀ i, F.allocated ((s.evictSeq F h).parts i).map = F.allocated (s.parts i).map := by
    intro i
    rcases eq_or_ne i (partOf h) with rfl | other
    · rw [← part, erased, kept.1, part]
    · rw [others i other]
  refine ⟨⟨ledger.capped, fun i => ?_, ?_, ledger.bound⟩, ?_, same⟩
  · rw [same, ← ledger.bytes]
    exact forall_update (P := fun i (p : SeqPart L) => p.bytes = (s.parts i).bytes) (a := partOf h)
      (c := (s.part h).evict F) rfl (fun _ => rfl) i
  · unfold SeqShard.allocated
    simp only [same]
    exact ledger.total
  · intro grows
    refine absurd (growth.of_roomy _ _ ?_) grows
    have shorter := growth.length_erase member
    have size := growth.size_le (s.part h).map
    rw [erased, kept.2]
    omega

theorem entries_evictSeq (growth : F.Growth first) (some : F.keys (s.part h).map ≠ []) :
    (s.evictSeq F h).entries F + 1 = s.entries F := by
  obtain ⟨victim, member, erased⟩ := (s.part h).evict_map some
  have sum := sum_setPart (fun p => (F.keys p.map).length) s h ((s.part h).evict F)
  change (s.evictSeq F h).entries F + (F.keys (s.part h).map).length =
    s.entries F + (F.keys ((s.part h).evict F).map).length at sum
  have shorter := growth.length_erase member
  rw [erased] at sum
  omega

/-- A hash that was evicted from a part was not the one to be inserted. -/
theorem not_mem_evictSeq (some : F.keys (s.part h).map ≠ []) (fresh : h ∉ F.keys (s.part h).map) :
    h ∉ F.keys ((s.evictSeq F h).part h).map := by
  obtain ⟨victim, _, erased, _⟩ := s.evictSeq_map some
  rw [erased, F.mem_erase]
  exact fun there => fresh there.1

/-- What a call does to a shard, with the number of keys it inserts. -/
inductive Moves (F : F14 L) (s : SeqShard L) : ℕ → SeqShard L → Prop
  | stay {t : SeqShard L} (alike : Alike s t) : Moves F s 0 t
  | grow {h seqno valuePtr : UInt64} {deleted : Bool} (fresh : h ∉ F.keys (s.part h).map)
      (fits : s.seqFits F (s.part h)) : Moves F s 1 (s.insert F h seqno deleted valuePtr)
  | replace {h seqno valuePtr : UInt64} {deleted : Bool} (fresh : h ∉ F.keys (s.part h).map)
      (some : F.keys (s.part h).map ≠ []) : Moves F s 1 ((s.evictSeq F h).insert F h seqno deleted valuePtr)

namespace Moves

variable {n : ℕ}

theorem seqCap_eq (moves : Moves F s n t) : t.seqCap = s.seqCap := by
  cases moves with
  | stay alike => exact alike.seqCap
  | grow | replace => rfl

theorem ledger (moves : Moves F s n t) (growth : F.Growth first) (ledger : s.Ledger F first) : t.Ledger F first := by
  cases moves with
  | stay alike => exact ledger.alike alike
  | grow fresh fits => exact ledger.insert growth (ledger.peak growth fits)
  | replace fresh some =>
    obtain ⟨evicted, peak, _⟩ := ledger.evictSeq growth some
    exact evicted.insert growth peak

theorem entries (moves : Moves F s n t) (growth : F.Growth first) :
    t.entries F + t.seqEvictions = s.entries F + s.seqEvictions + n := by
  cases moves with
  | stay alike => rw [alike.entries, alike.seqEvictions, Nat.add_zero]
  | @grow h seqno valuePtr deleted fresh fits =>
    rw [entries_insert growth fresh]
    change _ + s.seqEvictions = _
    omega
  | @replace h seqno valuePtr deleted fresh some =>
    rw [entries_insert growth (not_mem_evictSeq some fresh), entries_evictSeq growth some]
    change _ + (s.seqEvictions + 1) = _
    omega

/-- A table that is replaced by the insertion of a hash. -/
theorem peak_insert (peak : s.Peak F first h) {i : ℕ}
    (grows : F.allocated ((s.insert F h seqno deleted valuePtr).parts i).map ≠ F.allocated (s.parts i).map) :
    s.seqBytes + F.allocated ((s.insert F h seqno deleted valuePtr).parts i).map ≤ s.seqCap + first := by
  have shape : ((s.insert F h seqno deleted valuePtr).parts i).map =
      if i = partOf h then F.emplace (s.part h).map h else (s.parts i).map := by
    simp only [insert, setPart, Function.update_apply]
    split <;> rfl
  rw [shape] at grows ⊢
  split at grows
  · next here =>
    subst here
    rw [if_pos rfl]
    exact peak grows
  · exact absurd rfl grows

theorem peak (moves : Moves F s n t) (growth : F.Growth first) (ledger : s.Ledger F first) {i : ℕ}
    (grows : F.allocated (t.parts i).map ≠ F.allocated (s.parts i).map) :
    s.seqBytes + F.allocated (t.parts i).map ≤ s.seqCap + first := by
  cases moves with
  | stay alike => exact absurd (by rw [alike.map]) grows
  | grow fresh fits => exact peak_insert (ledger.peak growth fits) grows
  | replace fresh some =>
    obtain ⟨_, peak, same⟩ := ledger.evictSeq growth some
    rw [← same] at grows
    exact peak_insert peak grows

end Moves

end SeqShard

namespace SeqIndex

open SeqShard

variable {hash : DocKey → UInt64} {shardMask : UInt64} {x : SeqIndex L}

/-- Whether a call adds a key to a shard that the shard did not have. -/
def inserts (F : F14 L) (hash : DocKey → UInt64) (shardMask : UInt64) (i : ℕ) (x : SeqIndex L) (call : SeqCall) :
    Bool :=
  match call.note with
  | some (key, _) => shardFor hash shardMask key = i && (x.find F hash shardMask key).isNone &&
      ((x.next F hash shardMask call).find F hash shardMask key).isSome
  | none => false

/-- The keys that calls add to a shard. -/
def insertions (F : F14 L) (hash : DocKey → UInt64) (shardMask : UInt64) (i : ℕ) : SeqIndex L → List SeqCall → ℕ
  | _, [] => 0
  | x, call :: calls =>
    (x.inserts F hash shardMask i call).toNat + insertions F hash shardMask i (x.next F hash shardMask call) calls

theorem moves_note (x : SeqIndex L) (key : DocKey) (seqno : UInt64) (deleted : Bool) (ptr : UInt64) (admits : Bool)
    (i : ℕ) :
    let y := x.note F hash shardMask key seqno deleted ptr admits
    Moves F (x.shards i) (shardFor hash shardMask key = i && (x.find F hash shardMask key).isNone &&
      (y.find F hash shardMask key).isSome).toNat (y.shards i) := by
  intro y
  rcases eq_or_ne (shardFor hash shardMask key) i with rfl | other
  · have there : y.shards (shardFor hash shardMask key) = y.shard hash shardMask key := rfl
    have after : y.shard hash shardMask key =
      (x.shard hash shardMask key).noteSeqno F (hash key) seqno deleted ptr admits := Function.update_self ..
    rw [decide_eq_true rfl, Bool.true_and, find, find, there, after]
    rcases (x.shard hash shardMask key).noteSeqno_cases (F := F) (hash key) seqno deleted ptr admits with
      ⟨alike, same⟩ | ⟨fresh, ⟨fits, shape⟩ | ⟨some, shape⟩⟩
    · have none : (((x.shard hash shardMask key).lookup F (hash key)).isNone &&
          (((x.shard hash shardMask key).noteSeqno F (hash key) seqno deleted ptr admits).lookup F (hash key)).isSome) =
          false := by
        simp only [SeqShard.lookup, SeqPart.lookup, ← same]
        split <;> rfl
      rw [none]
      exact .stay alike
    · rw [shape, lookup_insert, if_pos rfl, show SeqShard.lookup F _ _ = none from (SeqPart.lookup_eq_none F).mpr fresh]
      exact .grow fresh fits
    · rw [shape, lookup_insert, if_pos rfl, show SeqShard.lookup F _ _ = none from (SeqPart.lookup_eq_none F).mpr fresh]
      exact .replace fresh some
  · rw [decide_eq_false other, Bool.false_and, Bool.false_and]
    refine .stay ?_
    rw [show y.shards i = x.shards i from Function.update_of_ne other.symm ..]
    exact .refl _

/-- Nothing is inserted by a call that does nothing. -/
theorem moves_of_eq {call : SeqCall} (same : x.next F hash shardMask call = x) (i : ℕ) :
    Moves F (x.shards i) (x.inserts F hash shardMask i call).toNat ((x.next F hash shardMask call).shards i) := by
  have none : x.inserts F hash shardMask i call = false := by
    unfold inserts
    rw [same]
    cases call.note with
    | none => rfl
    | some noted => cases x.find F hash shardMask noted.1 <;> simp
  rw [none, same]
  exact .stay (.refl _)

theorem moves_of_note {call : SeqCall} {key : DocKey} {seqno : UInt64} {deleted : Bool}
    (noted : call.note = some (key, seqno, deleted)) (ptr : UInt64) (admits : Bool)
    (shape : (x.next F hash shardMask call).shards = (x.note F hash shardMask key seqno deleted ptr admits).shards)
    (i : ℕ) :
    Moves F (x.shards i) (x.inserts F hash shardMask i call).toNat ((x.next F hash shardMask call).shards i) := by
  unfold inserts
  simp only [noted, find, shard, shape]
  exact x.moves_note key seqno deleted ptr admits i

/-- A shard that changes in its entries only. -/
theorem moves_alter {key : DocKey} {s : SeqShard L} (alike : Alike (x.shard hash shardMask key) s) (i : ℕ) :
    Moves F (x.shards i) 0 ((x.alter hash shardMask key s).shards i) := by
  refine .stay ?_
  exact forall_update (P := fun i s => Alike (x.shards i) s) alike (fun i => .refl _) i

theorem moves_next (x : SeqIndex L) (call : SeqCall) (i : ℕ) :
    Moves F (x.shards i) (x.inserts F hash shardMask i call).toNat ((x.next F hash shardMask call).shards i) := by
  cases call with
  | noteSeqno key seqno deleted ptr =>
    rcases eq_or_ne seqno 0 with zero | noted
    · refine moves_of_eq ?_ i
      exact if_pos zero
    · refine moves_of_note rfl ptr true ?_ i
      rw [SeqIndex.next, if_neg noted]
  | markPersisted key seqno deleted =>
    rcases eq_or_ne seqno 0 with zero | noted
    · refine moves_of_eq ?_ i
      exact if_pos zero
    · refine moves_of_note rfl 0 true ?_ i
      rw [SeqIndex.next, if_neg noted]
  | putIfAbsent key seqno =>
    rcases eq_or_ne seqno 0 with zero | noted
    · refine moves_of_eq ?_ i
      exact if_pos zero
    · refine moves_of_note rfl 0 false ?_ i
      rw [SeqIndex.next, if_neg noted]
  | noteValuePtr key seqno ptr =>
    rcases Decidable.em (seqno = 0 ∨ ptr = 0) with zero | noted
    · refine moves_of_eq ?_ i
      exact if_pos zero
    · rw [SeqIndex.next, if_neg noted]
      refine moves_alter ?_ i
      unfold SeqShard.noteValuePtr
      dsimp only
      split
      · exact .write ..
      · exact .refl _
  | seqnoHint key =>
    refine moves_alter ?_ i
    unfold SeqShard.seqnoHint
    dsimp only
    split
    · exact .write ..
    · exact .refl _

theorem ledger_start (growth : F.Growth first) {maxBytes : ℕ} (capped : 0 < maxBytes / (shardMask.toNat + 1)) (i : ℕ) :
    ((start F shardMask maxBytes).shards i).Ledger F first := by
  have none : ∀ p, F.allocated (((start F shardMask maxBytes).shards i).parts p).map = 0 :=
    fun _ => growth.allocated_empty
  refine ⟨capped, fun p => (none p).symm, ?_, Nat.zero_le _⟩
  exact (Finset.sum_eq_zero fun p _ => none p).symm

/-- A whole run keeps the counters right, and counts what it inserts. -/
theorem ledger_of_exec (growth : F.Growth first) {calls : List SeqCall} {i : ℕ} {y : SeqIndex L}
    (run : exec (step F hash shardMask) x calls = some y) (ledger : (x.shards i).Ledger F first) :
    (y.shards i).Ledger F first ∧ (y.shards i).seqCap = (x.shards i).seqCap ∧
      (y.shards i).entries F + (y.shards i).seqEvictions =
        (x.shards i).entries F + (x.shards i).seqEvictions + insertions F hash shardMask i x calls := by
  induction calls generalizing x with
  | nil =>
    obtain rfl := Option.some.inj run
    exact ⟨ledger, rfl, by rw [insertions, Nat.add_zero]⟩
  | cons call calls ih =>
    obtain ⟨mid, stepped, rest⟩ := exec_cons_eq_some.mp run
    obtain rfl : x.next F hash shardMask call = mid := Option.some.inj stepped
    have moves : Moves F (x.shards i) (x.inserts F hash shardMask i call).toNat _ := x.moves_next call i
    obtain ⟨after, cap, counted⟩ := ih rest (moves.ledger growth ledger)
    have here := moves.entries growth
    refine ⟨after, cap.trans moves.seqCap_eq, ?_⟩
    rw [insertions]
    omega

/-- In every run the index of a shard is charged what its tables have allocated, stays within its cap and a first
table, also while a table is replaced, and has the entries that were inserted and not evicted. -/
theorem seqno_index_stays_at_cap (growth : F.Growth first) {maxBytes : ℕ}
    (capped : 0 < maxBytes / (shardMask.toNat + 1)) {calls : List SeqCall} {y : SeqIndex L}
    (run : exec (step F hash shardMask) (start F shardMask maxBytes) calls = some y) (i : ℕ) :
    let s := y.shards i
    let cap := maxBytes / (shardMask.toNat + 1)
    s.seqBytes = ∑ p ∈ Finset.range kSeqParts, F.allocated (s.parts p).map ∧ s.seqBytes ≤ cap + first ∧
      (∀ call p, let t := (y.next F hash shardMask call).shards i
        F.allocated (t.parts p).map ≠ F.allocated (s.parts p).map →
          s.seqBytes + F.allocated (t.parts p).map ≤ cap + first) ∧
      ∑ p ∈ Finset.range kSeqParts, (F.keys (s.parts p).map).length + s.seqEvictions =
        insertions F hash shardMask i (start F shardMask maxBytes) calls := by
  intro s cap
  obtain ⟨ledger, same, counted⟩ := ledger_of_exec (i := i) growth run (ledger_start growth capped i)
  have same : s.seqCap = cap := same
  have none : ((start F shardMask maxBytes).shards i).entries F = 0 :=
    Finset.sum_eq_zero fun p _ => List.length_eq_zero_iff.mpr F.keys_empty
  have never : ((start F shardMask maxBytes).shards i).seqEvictions = 0 := rfl
  refine ⟨ledger.total, same ▸ ledger.bound, ?_, ?_⟩
  · intro call p t grows
    rw [← same]
    exact (y.moves_next call i).peak growth ledger grows
  · rw [none, never, Nat.zero_add] at counted
    exact counted

end SeqIndex

/-- The keys and the buckets of a small table. -/
abbrev Buckets : Type := { m : List UInt64 × ℕ // m.1.Nodup ∧ m.1.length ≤ m.2 }

/-- A table with as many buckets as bytes, twice as many when it is full. -/
def F14.doubling : F14 Buckets where
  empty := ⟨([], 0), List.nodup_nil, Nat.zero_le 0⟩
  keys := fun m => m.1.1
  bucketCount := fun m => m.1.2
  allocated := fun m => m.1.2
  emplace := fun m h =>
    if fresh : h ∉ m.1.1 then
      ⟨(h :: m.1.1, if m.1.1.length < m.1.2 then m.1.2 else max 1 (2 * m.1.2)), List.nodup_cons.mpr ⟨fresh, m.2.1⟩, by
        have size := m.2.2
        rw [List.length_cons]
        split <;> omega⟩
    else m
  erase := fun m h => ⟨(m.1.1.erase h, m.1.2), m.2.1.erase h, (List.length_erase_le).trans m.2.2⟩
  keys_empty := rfl
  mem_emplace := fun m h h' => by
    split
    · exact List.mem_cons
    · next held =>
      refine (or_iff_right_of_imp ?_).symm
      rintro rfl
      exact not_not.mp held
  mem_erase := fun m h h' => m.2.1.mem_erase_iff.trans and_comm

theorem F14.growth_doubling : F14.doubling.Growth 1 where
  nodup := fun m => m.2.1
  size_le := fun m => m.2.2
  allocated_empty := rfl
  of_roomy := fun m h roomy => by
    simp only [doubling] at roomy ⊢
    split <;> simp
  never_shrinks := fun m h => by
    simp only [doubling]
    split
    · dsimp only
      split <;> omega
    · exact le_rfl
  first_table := fun m h none => by
    simp only [doubling] at none ⊢
    split
    · dsimp only
      split <;> omega
    · omega
  doubles := fun m h some => by
    simp only [doubling] at some ⊢
    split
    · dsimp only
      split <;> omega
    · omega
  erase_keeps := fun _ _ => ⟨rfl, rfl⟩

/-- Under a cap of two bytes a second key of the same part takes the place of the first. -/
theorem SeqIndex.seqno_index_stays_at_cap_two : ∃ y : SeqIndex Buckets,
    (y.shards 0).seqEvictions = 1 ∧ (y.shards 0).seqBytes ≤ 2 / ((0 : UInt64).toNat + 1) + 1 := by
  obtain ⟨y, run, evicted⟩ : ∃ y, exec (step .doubling (fun key => .ofNat key.2.length) 0) (start .doubling 0 2)
      [.noteSeqno (0, []) 10 false 0, .markPersisted (0, [1]) 11 false] = some y ∧ (y.shards 0).seqEvictions = 1 :=
    exists_exec (by decide +kernel)
  exact ⟨y, evicted, (seqno_index_stays_at_cap F14.growth_doubling (by decide) run 0).2.1⟩

end FluxKV.Cache
