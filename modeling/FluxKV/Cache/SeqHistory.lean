import FluxKV.Cache.SeqIndex

/-! # The seqno index never goes back

A read fill may carry a seqno that is older than one noted before. Under a key that is still there the
higher seqno wins. A key that was noted and is gone was evicted, and then no fill adds a key to the
shard any more; or it was turned away because its part was empty and the shard full, and then nothing
is added to that part until something is evicted elsewhere.
-/

namespace FluxKV.Cache

open Engine Machine Counting

namespace SeqShard

variable {L : Type*} {F : F14 L} {s : SeqShard L} {h h' seqno : UInt64}

/-- An empty part has allocated nothing. -/
def Blank (F : F14 L) (p : SeqPart L) : Prop := F.keys p.map = [] → p.bytes = 0

/-- This is so for every part of a shard from which nothing was ever evicted. -/
def Settled (F : F14 L) (s : SeqShard L) : Prop := s.seqEvictions = 0 → ∀ i, Blank F (s.parts i)

/-- The part of the hash is empty and the shard has no room to begin one. -/
structure Full (F : F14 L) (s : SeqShard L) (h : UInt64) : Prop where
  capped : s.seqCap ≠ 0
  past : s.seqCap < s.seqBytes
  vacant : F.keys (s.part h).map = []

/-- The index holds at least this seqno under the hash, or no read fill can bring the hash back. -/
structure Floor (F : F14 L) (s : SeqShard L) (h seqno : UInt64) : Prop where
  present : ∀ v, s.lookup F h = some v → seqno ≤ v.current
  absent : s.lookup F h = none → 0 < s.seqEvictions ∨ s.Full F h

theorem Full.not_fits (full : s.Full F h) (p : SeqPart L) : ¬ s.seqFits F p := by
  rintro (unbounded | within)
  · exact full.capped unbounded
  · have past := full.past
    omega

/-- Writing under a hash that the index holds. -/
theorem lookup_write (member : h ∈ F.keys (s.part h).map) (v : SeqEntry) (h' : UInt64) :
    (s.setPart h ((s.part h).write h v)).lookup F h' = if h' = h then some v else s.lookup F h' :=
  lookup_setPart_of_part F (SeqPart.lookup_write F member v) h'

theorem lookup_insert (s : SeqShard L) (h seqno : UInt64) (deleted : Bool) (ptr h' : UInt64) :
    (s.insert F h seqno deleted ptr).lookup F h' =
      if h' = h then some (SeqEntry.raise ⟨0, 0⟩ seqno deleted ptr) else s.lookup F h' := by
  refine lookup_setPart_of_part F (fun h' => ?_) h'
  rw [SeqPart.lookup_write F ((F.mem_emplace _ _ _).mpr (.inl rfl)), SeqPart.lookup_emplace]
  split_ifs <;> rfl

/-- What an eviction leaves, it leaves as it looked. -/
theorem lookup_evictSeq {v : SeqEntry} (kept : (s.evictSeq F h).lookup F h' = some v) :
    ∃ v', s.lookup F h' = some v' ∧ v.view = v'.view := by
  have shape : (s.evictSeq F h).lookup F h' =
      if partOf h' = partOf h then ((s.part h).evict F).lookup F h' else s.lookup F h' := lookup_setPart F ..
  rw [shape] at kept
  split at kept
  · next same =>
    obtain ⟨v', before, alike⟩ := SeqPart.lookup_evict F kept
    exact ⟨v', by rw [lookup, part, same]; exact before, alike⟩
  · exact ⟨v, kept, rfl⟩

theorem Settled.note (settled : s.Settled F) (deleted : Bool) (ptr : UInt64) (admits : Bool) :
    (s.noteSeqno F h seqno deleted ptr admits).Settled F := by
  unfold noteSeqno
  dsimp only
  split_ifs with member shut fits vacant
  · intro never
    exact forall_update (P := fun _ => Blank F) (settled never (partOf h)) (settled never)
  · exact settled
  · intro never
    refine forall_update (P := fun _ => Blank F) (fun blank => ?_) (settled never)
    have there := (F.mem_emplace (s.part h).map h h).mpr (.inl rfl)
    rw [show F.keys (F.emplace (s.part h).map h) = [] from blank] at there
    cases there
  · exact settled
  · intro never
    cases never

/-- A note leaves its own seqno as a floor. -/
theorem Settled.floor_note (settled : s.Settled F) (low : seqno.toNat < 2 ^ 62) (deleted : Bool) (ptr : UInt64) :
    (s.noteSeqno F h seqno deleted ptr true).Floor F h seqno := by
  have raised := fun v : SeqEntry => (v.le_current_raise low deleted ptr).2
  have reached : ∀ t : SeqShard L, ∀ v : SeqEntry, t.lookup F h = some (v.raise seqno deleted ptr) →
      t.Floor F h seqno := by
    intro t v held
    refine ⟨fun v' other => ?_, fun gone => ?_⟩
    · rw [← Option.some_inj.mp (held.symm.trans other)]
      exact raised v
    · cases held.symm.trans gone
  unfold noteSeqno
  dsimp only
  split_ifs with member shut fits vacant
  · exact reached _ _ ((lookup_write member _ h).trans (if_pos rfl))
  · cases shut.1
  · exact reached _ _ ((lookup_insert s h seqno deleted ptr h).trans (if_pos rfl))
  · refine ⟨fun v held => (member ((SeqPart.lookup_eq_some F).mp held).1).elim, fun _ => ?_⟩
    rcases Nat.eq_zero_or_pos s.seqEvictions with never | some
    · have blank := settled never (partOf h) vacant
      refine .inr ⟨fun unbounded => fits (.inl unbounded), ?_, vacant⟩
      apply Nat.lt_of_not_le
      intro within
      apply fits
      refine .inr ?_
      change s.seqBytes + (if _ then 2 * (s.parts (partOf h)).bytes else 0) ≤ s.seqCap
      rw [blank]
      split <;> exact within
    · exact .inl some
  · exact reached _ _ ((lookup_insert _ h seqno deleted ptr h).trans (if_pos rfl))

/-- Writing a seqno that is not lower keeps a floor. -/
theorem Floor.write {floor : UInt64} (before : s.Floor F h floor) (member : h' ∈ F.keys (s.part h').map) {v : SeqEntry}
    (raised : h' = h → ((s.part h').entry h').current ≤ v.current) :
    (s.setPart h' ((s.part h').write h' v)).Floor F h floor := by
  constructor
  · intro v' held
    rw [lookup_write member] at held
    split at held
    · next same =>
      subst same
      cases held
      have old := before.present _ ((SeqPart.lookup_eq_some F).mpr ⟨member, rfl⟩)
      exact UInt64.le_trans old (raised rfl)
    · exact before.present v' held
  · intro gone
    rw [lookup_write member] at gone
    split at gone
    · cases gone
    · refine (before.absent gone).imp id fun full => ⟨full.capped, full.past, ?_⟩
      have same : ∀ i, F.keys ((s.setPart h' ((s.part h').write h' v)).parts i).map = F.keys (s.parts i).map :=
        forall_update (P := fun i (p : SeqPart L) => F.keys p.map = F.keys (s.parts i).map) rfl fun _ => rfl
      exact (same (partOf h)).trans full.vacant

theorem Floor.reject {floor : UInt64} (before : s.Floor F h floor) : s.reject.Floor F h floor :=
  ⟨before.present, fun gone => (before.absent gone).imp id fun full => ⟨full.capped, full.past, full.vacant⟩⟩

/-- A hash with a floor is added again only by a note that may add any. -/
private theorem Floor.admitted {floor : UInt64} (before : s.Floor F h floor) (gone : h ∉ F.keys (s.part h).map)
    {admits : Bool} (passed : ¬ (admits = false ∧ 0 < s.seqEvictions)) (roomy : ¬ s.Full F h) : admits = true := by
  cases admits with
  | true => rfl
  | false => exact (passed ⟨rfl, (before.absent ((SeqPart.lookup_eq_none F).mpr gone)).resolve_right roomy⟩).elim

/-- A floor stays under every later note that is not older, and under every read fill. -/
theorem Floor.note {floor : UInt64} (before : s.Floor F h floor) (low : seqno.toNat < 2 ^ 62) (deleted : Bool)
    (ptr : UInt64) {admits : Bool} (newer : admits = true → h' = h → floor ≤ seqno) :
    (s.noteSeqno F h' seqno deleted ptr admits).Floor F h floor := by
  unfold noteSeqno
  dsimp only
  split_ifs with member shut fits vacant
  · exact before.write member fun _ => (SeqEntry.le_current_raise _ low deleted ptr).1
  · exact before.reject
  · refine ⟨fun v held => ?_, fun gone => ?_⟩
    · rw [lookup_insert] at held
      split at held
      · next same =>
        subst same
        cases held
        have admitted := before.admitted member shut fun full => full.not_fits _ fits
        exact UInt64.le_trans (newer admitted rfl) (SeqEntry.le_current_raise _ low deleted ptr).2
      · exact before.present v held
    · rw [lookup_insert] at gone
      split at gone
      · cases gone
      · exact .inl ((before.absent gone).resolve_right fun full => full.not_fits _ fits)
  · exact before.reject
  · refine ⟨fun v held => ?_, fun _ => .inl (Nat.succ_pos _)⟩
    rw [lookup_insert] at held
    split at held
    · next same =>
      subst same
      cases held
      have admitted := before.admitted member shut fun full => vacant full.vacant
      exact UInt64.le_trans (newer admitted rfl) (SeqEntry.le_current_raise _ low deleted ptr).2
    · obtain ⟨v', there, alike⟩ := lookup_evictSeq held
      rw [show v.current = v'.current from congrArg SeqView.seqno alike]
      exact before.present v' there

theorem Floor.noteValuePtr {floor : UInt64} (before : s.Floor F h floor) (seqno ptr : UInt64) :
    (s.noteValuePtr F h' seqno ptr).Floor F h floor := by
  unfold SeqShard.noteValuePtr
  dsimp only
  split
  · next held => exact before.write held.1 fun _ => UInt64.le_refl _
  · exact before

theorem Floor.seqnoHint {floor : UInt64} (before : s.Floor F h floor) : (s.seqnoHint F h').1.Floor F h floor := by
  unfold SeqShard.seqnoHint
  dsimp only
  split
  · next held => exact before.write held.1 fun _ => by rw [SeqEntry.current_use]; exact UInt64.le_refl _
  · exact before

theorem Settled.write (settled : s.Settled F) (v : SeqEntry) :
    (s.setPart h ((s.part h).write h v)).Settled F := by
  intro never
  exact forall_update (P := fun _ => Blank F) (settled never (partOf h)) (settled never)

/-- What the index holds after a note is the note, or was there before. -/
theorem lookup_note (low : seqno.toNat < 2 ^ 62) {deleted : Bool} {ptr : UInt64} {admits : Bool} {v : SeqEntry}
    (held : (s.noteSeqno F h seqno deleted ptr admits).lookup F h' = some v) :
    h' = h ∧ v.current = seqno ∧ v.deleted = deleted ∨
      ∃ v', s.lookup F h' = some v' ∧ v.current = v'.current ∧ v.deleted = v'.deleted := by
  have inserted : ∀ t : SeqShard L, (t.insert F h seqno deleted ptr).lookup F h' = some v →
      h' = h ∧ v.current = seqno ∧ v.deleted = deleted ∨ t.lookup F h' = some v := by
    intro t held
    rw [lookup_insert] at held
    split at held
    · next same =>
      cases held
      exact .inl ⟨same, SeqEntry.raise_default low deleted ptr⟩
    · exact .inr held
  unfold noteSeqno at held
  dsimp only at held
  split_ifs at held with member shut fits vacant
  · rw [lookup_write member] at held
    split at held
    · next same =>
      subst same
      cases held
      have spec := ((s.part h').entry h').raise_spec low deleted ptr
      split at spec
      · exact .inl ⟨rfl, spec⟩
      · exact .inr ⟨_, (SeqPart.lookup_eq_some F).mpr ⟨member, rfl⟩, spec⟩
    · exact .inr ⟨v, held, rfl, rfl⟩
  · exact .inr ⟨v, held, rfl, rfl⟩
  · exact (inserted s held).imp_right fun before => ⟨v, before, rfl, rfl⟩
  · exact .inr ⟨v, held, rfl, rfl⟩
  · refine (inserted _ held).imp_right fun left => ?_
    obtain ⟨v', there, alike⟩ := lookup_evictSeq left
    exact ⟨v', there, congrArg SeqView.seqno alike, congrArg SeqView.deleted alike⟩

/-- Writing an entry with the same seqno and deleted bit shows nowhere. -/
theorem lookup_write_same (member : h ∈ F.keys (s.part h).map) {v v' : SeqEntry}
    (same : v.current = ((s.part h).entry h).current ∧ v.deleted = ((s.part h).entry h).deleted)
    (held : (s.setPart h ((s.part h).write h v)).lookup F h' = some v') :
    ∃ old, s.lookup F h' = some old ∧ v'.current = old.current ∧ v'.deleted = old.deleted := by
  rw [lookup_write member] at held
  split at held
  · next equal =>
    subst equal
    cases held
    exact ⟨_, (SeqPart.lookup_eq_some F).mpr ⟨member, rfl⟩, same⟩
  · exact ⟨v', held, rfl, rfl⟩

theorem lookup_noteValuePtr {ptr : UInt64} {v : SeqEntry}
    (held : (s.noteValuePtr F h seqno ptr).lookup F h' = some v) :
    ∃ v', s.lookup F h' = some v' ∧ v.current = v'.current ∧ v.deleted = v'.deleted := by
  unfold SeqShard.noteValuePtr at held
  dsimp only at held
  split at held
  · next found => exact lookup_write_same found.1 (by exact ⟨rfl, rfl⟩) held
  · exact ⟨v, held, rfl, rfl⟩

theorem lookup_seqnoHint {v : SeqEntry} (held : (s.seqnoHint F h).1.lookup F h' = some v) :
    ∃ v', s.lookup F h' = some v' ∧ v.current = v'.current ∧ v.deleted = v'.deleted := by
  unfold SeqShard.seqnoHint at held
  dsimp only at held
  split at held
  · next found => exact lookup_write_same found.1 ⟨SeqEntry.current_use _, SeqEntry.deleted_use _⟩ held
  · exact ⟨v, held, rfl, rfl⟩

/-- A hint that is given is the seqno the index holds. -/
theorem lookup_of_hint (given : (s.seqnoHint F h).2.1 ≠ 0) :
    ∃ v, s.lookup F h = some v ∧ v.deleted = false ∧ (s.seqnoHint F h).2.1 = v.current := by
  unfold SeqShard.seqnoHint at given ⊢
  dsimp only at given ⊢
  split at given
  · next held =>
    rw [if_pos held]
    exact ⟨_, (SeqPart.lookup_eq_some F).mpr ⟨held.1, rfl⟩, held.2, rfl⟩
  · exact (given rfl).elim

end SeqShard

/-- The calls that reach the seqno index. A write is acknowledged with the deleted bit of the entry the
cache holds at that moment, which can be either. -/
inductive SeqCall where
  | noteSeqno (key : DocKey) (seqno : UInt64) (deleted : Bool) (valuePtr : UInt64)
  | markPersisted (key : DocKey) (seqno : UInt64) (deleted : Bool)
  | putIfAbsent (key : DocKey) (seqno : UInt64)
  | noteValuePtr (key : DocKey) (seqno valuePtr : UInt64)
  | seqnoHint (key : DocKey)
deriving DecidableEq, Repr

/-- The key, the seqno and the deleted bit that a call notes. -/
def SeqCall.note : SeqCall → Option (DocKey × UInt64 × Bool)
  | .noteSeqno key seqno deleted _ | .markPersisted key seqno deleted => some (key, seqno, deleted)
  | .putIfAbsent key seqno => some (key, seqno, false)
  | .noteValuePtr .. | .seqnoHint _ => none

/-- A seqno that the warmup or an acknowledged write noted for a key. -/
structure Note where
  key : DocKey
  seqno : UInt64
  warmup : Bool
deriving DecidableEq, Repr

/-- The seqno index of the cache, and what was noted so far. -/
structure SeqIndex (L : Type*) where
  shards : ℕ → SeqShard L
  noted : List Note

namespace SeqIndex

variable {L : Type*} (F : F14 L) (hash : DocKey → UInt64) (shardMask : UInt64)

/-- The empty index, with `SetSeqnoIndexCap`. -/
def start (maxBytes : ℕ) : SeqIndex L := ⟨fun _ => .empty F (maxBytes / (shardMask.toNat + 1)), []⟩

def shard (x : SeqIndex L) (key : DocKey) : SeqShard L := x.shards (shardFor hash shardMask key)

def alter (x : SeqIndex L) (key : DocKey) (s : SeqShard L) : SeqIndex L :=
  { x with shards := Function.update x.shards (shardFor hash shardMask key) s }

def note (x : SeqIndex L) (key : DocKey) (seqno : UInt64) (deleted : Bool) (valuePtr : UInt64) (admits : Bool) :
    SeqIndex L :=
  x.alter hash shardMask key ((x.shard hash shardMask key).noteSeqno F (hash key) seqno deleted valuePtr admits)

/-- What `SeqnoHint` returns. -/
def hint (x : SeqIndex L) (key : DocKey) : UInt64 := ((x.shard hash shardMask key).seqnoHint F (hash key)).2.1

/-- One call. -/
def next (x : SeqIndex L) : SeqCall → SeqIndex L
  | .noteSeqno key seqno deleted valuePtr =>
    if seqno = 0 then x
    else { x.note F hash shardMask key seqno deleted valuePtr true with noted := ⟨key, seqno, true⟩ :: x.noted }
  | .markPersisted key seqno deleted =>
    if seqno = 0 then x
    else { x.note F hash shardMask key seqno deleted 0 true with noted := ⟨key, seqno, false⟩ :: x.noted }
  | .putIfAbsent key seqno => if seqno = 0 then x else x.note F hash shardMask key seqno false 0 false
  | .noteValuePtr key seqno valuePtr =>
    if seqno = 0 ∨ valuePtr = 0 then x
    else x.alter hash shardMask key ((x.shard hash shardMask key).noteValuePtr F (hash key) seqno valuePtr)
  | .seqnoHint key => x.alter hash shardMask key ((x.shard hash shardMask key).seqnoHint F (hash key)).1

def step (x : SeqIndex L) (call : SeqCall) : Option (SeqIndex L) := some (x.next F hash shardMask call)

/-- The seqnos that calls add keep clear of the flag bits. -/
def Low : SeqCall → Prop
  | .noteSeqno _ seqno _ _ | .markPersisted _ seqno _ | .putIfAbsent _ seqno => seqno.toNat < 2 ^ 62
  | .noteValuePtr .. | .seqnoHint _ => True

instance (call : SeqCall) : Decidable (Low call) :=
  match call with
  | .noteSeqno .. | .markPersisted .. | .putIfAbsent .. => inferInstanceAs (Decidable (_ < _))
  | .noteValuePtr .. | .seqnoHint _ => .isTrue trivial

/-- No key whose hash is that of this one was noted. -/
def Apart (x : SeqIndex L) (key : DocKey) : Prop := ∀ n ∈ x.noted, hash n.key = hash key → n.key = key

instance (x : SeqIndex L) (key : DocKey) : Decidable (x.Apart hash key) := List.decidableBAll _ _

/-- The acknowledged writes of a key have ascending seqnos, and no two hashes collide. -/
def Ascending (x : SeqIndex L) (call : SeqCall) : Prop :=
  Low call ∧ match call with
    | .noteSeqno key .. => x.Apart hash key
    | .markPersisted key seqno _ =>
      x.Apart hash key ∧ ∀ n ∈ x.noted, n.warmup = false → n.key = key → n.seqno < seqno
    | _ => True

/-- Neither an acknowledged write nor the warmup notes a lower seqno for a key than was noted before. -/
def Raising (x : SeqIndex L) (call : SeqCall) : Prop :=
  Low call ∧ match call with
    | .noteSeqno key seqno .. | .markPersisted key seqno _ =>
      x.Apart hash key ∧ ∀ n ∈ x.noted, n.key = key → n.seqno ≤ seqno
    | _ => True

instance (x : SeqIndex L) (call : SeqCall) : Decidable (x.Ascending hash call) :=
  match call with
  | .noteSeqno .. => inferInstanceAs (Decidable (_ ∧ Apart hash x _))
  | .markPersisted .. => inferInstanceAs (Decidable (_ ∧ Apart hash x _ ∧ ∀ n ∈ x.noted, _))
  | .putIfAbsent .. | .noteValuePtr .. | .seqnoHint _ => inferInstanceAs (Decidable (_ ∧ True))

instance (x : SeqIndex L) (call : SeqCall) : Decidable (x.Raising hash call) :=
  match call with
  | .noteSeqno .. | .markPersisted .. => inferInstanceAs (Decidable (_ ∧ Apart hash x _ ∧ ∀ n ∈ x.noted, _))
  | .putIfAbsent .. | .noteValuePtr .. | .seqnoHint _ => inferInstanceAs (Decidable (_ ∧ True))

/-- Every note is a floor under its key's hash. -/
structure Floored (x : SeqIndex L) : Prop where
  settled : ∀ i, (x.shards i).Settled F
  floors : ∀ n ∈ x.noted, (x.shard hash shardMask n.key).Floor F (hash n.key) n.seqno

variable {F hash shardMask} {x : SeqIndex L} {key : DocKey} {s : SeqShard L} {seqno : UInt64}

theorem Floored.start (maxBytes : ℕ) : (SeqIndex.start F shardMask maxBytes).Floored F hash shardMask :=
  ⟨fun _ _ _ _ => rfl, by rintro _ ⟨⟩⟩

theorem shard_alter (x : SeqIndex L) (key key' : DocKey) (s : SeqShard L) :
    (x.alter hash shardMask key s).shard hash shardMask key' =
      if shardFor hash shardMask key' = shardFor hash shardMask key then s else x.shard hash shardMask key' := by
  simp only [shard, alter, Function.update_apply]

/-- A shard may change as long as it keeps its floors. -/
theorem Floored.alter (floored : x.Floored F hash shardMask) (settled : s.Settled F)
    (kept : ∀ n ∈ x.noted, (x.shard hash shardMask key).Floor F (hash n.key) n.seqno → s.Floor F (hash n.key) n.seqno) :
    (x.alter hash shardMask key s).Floored F hash shardMask := by
  refine ⟨forall_update (P := fun _ => SeqShard.Settled F) settled floored.settled, fun n member => ?_⟩
  rw [shard_alter]
  split
  · next same =>
    apply kept n member
    have before := floored.floors n member
    rwa [shard, same] at before
  · exact floored.floors n member

/-- A note of the warmup or of an acknowledged write becomes a floor itself. -/
theorem Floored.note (floored : x.Floored F hash shardMask) (apart : x.Apart hash key)
    (low : seqno.toNat < 2 ^ 62) (deleted : Bool) (ptr : UInt64)
    (newer : ∀ n ∈ x.noted, n.key = key → n.seqno ≤ seqno) (warmup : Bool) :
    { x.note F hash shardMask key seqno deleted ptr true with
      noted := ⟨key, seqno, warmup⟩ :: x.noted }.Floored F hash shardMask := by
  have settled := floored.settled (shardFor hash shardMask key)
  have after : (x.note F hash shardMask key seqno deleted ptr true).Floored F hash shardMask :=
    floored.alter (settled.note deleted ptr true) fun n member before =>
      before.note low deleted ptr fun _ same => newer n member (apart n member same.symm)
  refine ⟨after.settled, fun n member => ?_⟩
  rcases List.mem_cons.mp member with rfl | member
  · have floor := settled.floor_note (h := hash key) low deleted ptr
    change ((x.alter hash shardMask key _).shard hash shardMask key).Floor F (hash key) seqno
    rwa [shard_alter, if_pos rfl]
  · exact after.floors n member

theorem Floored.next (floored : x.Floored F hash shardMask) {call : SeqCall} (raising : x.Raising hash call) :
    (x.next F hash shardMask call).Floored F hash shardMask := by
  have settled := fun key => floored.settled (shardFor hash shardMask key)
  unfold SeqIndex.next
  cases call with
  | noteSeqno key seqno deleted ptr =>
    dsimp only
    split
    · exact floored
    · exact floored.note raising.2.1 raising.1 deleted ptr raising.2.2 true
  | markPersisted key seqno deleted =>
    dsimp only
    split
    · exact floored
    · exact floored.note raising.2.1 raising.1 deleted 0 raising.2.2 false
  | putIfAbsent key seqno =>
    dsimp only
    split
    · exact floored
    · exact floored.alter ((settled key).note false 0 false) fun n _ before =>
        before.note raising.1 false 0 (by rintro ⟨⟩)
  | noteValuePtr key seqno ptr =>
    dsimp only
    split
    · exact floored
    · refine floored.alter ?_ fun n _ before => before.noteValuePtr seqno ptr
      unfold SeqShard.noteValuePtr
      dsimp only
      split
      · exact (settled key).write _
      · exact settled key
  | seqnoHint key =>
    refine floored.alter ?_ fun n _ before => before.seqnoHint
    unfold SeqShard.seqnoHint
    dsimp only
    split
    · exact (settled key).write _
    · exact settled key

/-- What the index holds for a key. -/
def find (F : F14 L) (hash : DocKey → UInt64) (shardMask : UInt64) (x : SeqIndex L) (key : DocKey) : Option SeqEntry :=
  (x.shard hash shardMask key).lookup F (hash key)

/-- A change of one shard shows under the hashes it changes. -/
theorem find_alter {v : SeqEntry} {key' : DocKey}
    (held : (x.alter hash shardMask key s).find F hash shardMask key' = some v) :
    x.find F hash shardMask key' = some v ∨
      s.lookup F (hash key') = some v ∧
        x.find F hash shardMask key' = (x.shard hash shardMask key).lookup F (hash key') := by
  rw [find, shard_alter] at held
  split at held
  · next same => exact .inr ⟨held, by rw [find, shard, shard, same]⟩
  · exact .inl held

/-- A note that a call adds is that of an acknowledged write, or of the warmup. -/
theorem noted_next {call : SeqCall} {n : Note} (member : n ∈ (x.next F hash shardMask call).noted) :
    n ∈ x.noted ∨ (∃ deleted, call = .markPersisted n.key n.seqno deleted) ∨ n.warmup = true := by
  unfold SeqIndex.next at member
  cases call with
  | noteSeqno key seqno deleted ptr =>
    dsimp only at member
    split at member
    · exact .inl member
    · rcases List.mem_cons.mp member with rfl | old
      · exact .inr (.inr rfl)
      · exact .inl old
  | markPersisted key seqno deleted =>
    dsimp only at member
    split at member
    · exact .inl member
    · rcases List.mem_cons.mp member with rfl | old
      · exact .inr (.inl ⟨deleted, rfl⟩)
      · exact .inl old
  | putIfAbsent | noteValuePtr =>
    dsimp only at member
    split at member
    · exact .inl member
    · exact .inl member
  | seqnoHint key => exact .inl member

/-- What the index holds after a note is that, if the hash is the same, or was there before. -/
theorem find_note {key' : DocKey} {seqno : UInt64} {deleted : Bool} {ptr : UInt64} {admits : Bool} {v : SeqEntry}
    (low : seqno.toNat < 2 ^ 62)
    (held : (x.note F hash shardMask key' seqno deleted ptr admits).find F hash shardMask key = some v) :
    (hash key = hash key' ∧ v.current = seqno ∧ v.deleted = deleted) ∨
      ∃ v', x.find F hash shardMask key = some v' ∧ v.current = v'.current ∧ v.deleted = v'.deleted := by
  rcases find_alter held with before | ⟨after, shape⟩
  · exact .inr ⟨v, before, rfl, rfl⟩
  · rw [shape]
    exact SeqShard.lookup_note low after

/-- What the index holds after a call was noted by it for a key of the same hash, or was there before. -/
theorem find_next {call : SeqCall} (low : Low call) {v : SeqEntry}
    (held : (x.next F hash shardMask call).find F hash shardMask key = some v) :
    (∃ noted, call.note = some (noted, v.current, v.deleted) ∧ hash noted = hash key) ∨
      ∃ v', x.find F hash shardMask key = some v' ∧ v.current = v'.current ∧ v.deleted = v'.deleted := by
  have kept : x.find F hash shardMask key = some v →
      ∃ v', x.find F hash shardMask key = some v' ∧ v.current = v'.current ∧ v.deleted = v'.deleted :=
    fun before => ⟨v, before, rfl, rfl⟩
  unfold SeqIndex.next at held
  cases call with
  | noteSeqno key' | markPersisted key' =>
    dsimp only at held
    split at held
    · exact .inr (kept held)
    · refine (find_note low held).imp_left ?_
      rintro ⟨same, rfl, rfl⟩
      exact ⟨key', rfl, same.symm⟩
  | putIfAbsent key' seqno =>
    dsimp only at held
    split at held
    · exact .inr (kept held)
    · refine (find_note low held).imp_left ?_
      rintro ⟨same, rfl, live⟩
      exact ⟨key', by rw [live]; rfl, same.symm⟩
  | noteValuePtr key' seqno ptr =>
    dsimp only at held
    split at held
    · exact .inr (kept held)
    · rcases find_alter held with before | ⟨after, shape⟩
      · exact .inr (kept before)
      · rw [shape]
        exact .inr (SeqShard.lookup_noteValuePtr after)
  | seqnoHint key' =>
    rcases find_alter held with before | ⟨after, shape⟩
    · exact .inr (kept before)
    · rw [shape]
      exact .inr (SeqShard.lookup_seqnoHint after)

/-- What the index holds or hints for a key is at least what was noted for it. -/
theorem seqno_never_goes_back {maxBytes : ℕ}
    (reached : Reach (restrict (Raising hash) (step F hash shardMask)) (start F shardMask maxBytes) x) :
    ∀ n ∈ x.noted, (∀ v, (x.shard hash shardMask n.key).lookup F (hash n.key) = some v → n.seqno ≤ v.current) ∧
      (x.hint F hash shardMask n.key ≠ 0 → n.seqno ≤ x.hint F hash shardMask n.key) := by
  have floored : x.Floored F hash shardMask := by
    refine Reach.invariant (P := Floored F hash shardMask) (.start maxBytes) (fun before taken => ?_) reached
    obtain ⟨raising, taken⟩ := restrict_eq_some.mp taken
    cases taken
    exact before.next raising
  intro n member
  have floor := floored.floors n member
  refine ⟨floor.present, fun given => ?_⟩
  obtain ⟨v, held, _, same⟩ := SeqShard.lookup_of_hint given
  have bound := floor.present v held
  rwa [← same] at bound

end SeqIndex

/-- A table that keeps its keys in the order of their arrival, in 16 bytes each. -/
def F14.ofList : F14 (List UInt64) where
  empty := []
  keys := id
  bucketCount := List.length
  allocated := fun l => 16 * l.length
  emplace := fun l h => l ++ [h]
  erase := fun l h => l.filter (· != h)
  keys_empty := rfl
  mem_emplace := fun l h h' => by simp [or_comm]
  mem_erase := fun l h h' => by simp

namespace SeqIndex

private abbrev lengths (key : DocKey) : UInt64 := .ofNat key.2.length

/-- A write is acknowledged and its key evicted; a read fill of the older version does not bring it back. -/
theorem seqno_never_goes_back_evicted : ∃ x : SeqIndex (List UInt64),
    x.noted = [⟨(0, [1]), 11, false⟩, ⟨(0, []), 10, true⟩] ∧
      (x.hint .ofList lengths 0 (0, [1]) ≠ 0 → 11 ≤ x.hint .ofList lengths 0 (0, [1])) := by
  obtain ⟨x, reached, noted⟩ : ∃ x, Reach (restrict (Raising lengths) (step .ofList lengths 0)) (start .ofList 0 8) x ∧
      x.noted = [⟨(0, [1]), 11, false⟩, ⟨(0, []), 10, true⟩] :=
    exists_reach [.noteSeqno (0, []) 10 false 0, .markPersisted (0, [1]) 11 false, .putIfAbsent (0, []) 5,
      .noteValuePtr (0, [1]) 11 7, .seqnoHint (0, [1])] (by decide +kernel)
  exact ⟨x, noted, (seqno_never_goes_back reached ⟨(0, [1]), 11, false⟩ (by simp [noted])).2⟩

/-- A warmup that comes late brings an evicted key back with the version it read before the write. -/
theorem late_warmup_goes_back : ∃ x : SeqIndex (List UInt64),
    Reach (restrict (Ascending lengths) (step .ofList lengths 0)) (start .ofList 0 8) x ∧
      ⟨(0, []), 10, false⟩ ∈ x.noted ∧ x.hint .ofList lengths 0 (0, []) = 5 :=
  exists_reach [.markPersisted (0, []) 10 false, .markPersisted (0, [1]) 11 false, .noteSeqno (0, []) 5 false 0]
    (by decide +kernel)

end SeqIndex

end FluxKV.Cache
