import FluxKV.Cache.SeqHistory

/-! # Value pointers of the seqno index

Warmup and reads report where they found a document, and the index keeps the location beside the seqno. A
report for a version that is not the one the index holds is dropped, and a new version starts without a
location. The used bit, which hints set and evictions clear, shares the word with the seqno and the deleted
bit and changes neither for any call: what a call does to a key is a function of its view.
-/

namespace FluxKV.Cache

open Engine Machine

namespace SeqView

/-- A note leaves a view alone, or without a location, or with the version and the location it notes. -/
theorem raise_cases (w : SeqView) (seqno : UInt64) (deleted : Bool) (ptr : UInt64) :
    w.raise seqno deleted ptr = w ∨ (w.raise seqno deleted ptr).valuePtr = 0 ∨
      deleted = false ∧ w.raise seqno deleted ptr = ⟨seqno, false, ptr⟩ := by
  unfold raise
  split
  · cases deleted with
    | false => exact .inr (.inr ⟨rfl, rfl⟩)
    | true => exact .inr (.inl rfl)
  · next holds =>
    split
    · next same =>
      obtain ⟨rfl, _, live⟩ := same
      have plain : deleted = false := Bool.eq_false_iff.mpr fun gone => holds (.inr ⟨rfl, gone⟩)
      exact .inr (.inr ⟨plain, by rw [← live]⟩)
    · exact .inl rfl

theorem point_cases (w : SeqView) (seqno ptr : UInt64) :
    w.point seqno ptr = w ∨ w.point seqno ptr = ⟨seqno, false, ptr⟩ := by
  unfold point
  split
  · next same =>
    obtain ⟨rfl, live⟩ := same
    exact .inr (by rw [← live])
  · exact .inl rfl

end SeqView

namespace SeqShard

variable {L : Type*} {F : F14 L} {s : SeqShard L} {h h' seqno ptr : UInt64} {v : SeqEntry}

/-- What can be seen under a hash. -/
def viewAt (F : F14 L) (s : SeqShard L) (h : UInt64) : SeqView := ((s.lookup F h).map SeqEntry.view).getD .blank

theorem viewAt_of_lookup (held : s.lookup F h = some v) : s.viewAt F h = v.view := by rw [viewAt, held]; rfl

theorem viewAt_of_member (member : h ∈ F.keys (s.part h).map) : s.viewAt F h = ((s.part h).entry h).view :=
  viewAt_of_lookup ((SeqPart.lookup_eq_some F).mpr ⟨member, rfl⟩)

theorem viewAt_of_absent (absent : h ∉ F.keys (s.part h).map) : s.viewAt F h = .blank := by
  rw [viewAt, lookup, (SeqPart.lookup_eq_none F).mpr absent]
  rfl

/-- Writing one entry shows under its hash. -/
theorem view_write (member : h ∈ F.keys (s.part h).map) {new : SeqEntry}
    (held : (s.setPart h ((s.part h).write h new)).lookup F h' = some v) :
    v.view = if h' = h then new.view else s.viewAt F h' := by
  rw [lookup_write member] at held
  split at held
  · next same =>
    cases held
    rw [if_pos same]
  · next other => rw [if_neg other, viewAt_of_lookup held]

/-- A note changes what can be seen under its hash; other keys stay as they were or are evicted. -/
theorem view_note (low : seqno.toNat < 2 ^ 62) {deleted admits : Bool}
    (held : (s.noteSeqno F h seqno deleted ptr admits).lookup F h' = some v) :
    v.view = if h' = h then (s.viewAt F h').raise seqno deleted ptr else s.viewAt F h' := by
  have unmoved : h ∉ F.keys (s.part h).map → s.lookup F h' = some v →
      v.view = if h' = h then (s.viewAt F h').raise seqno deleted ptr else s.viewAt F h' := by
    intro absent before
    have other : h' ≠ h := by
      rintro rfl
      exact absent ((SeqPart.lookup_eq_some F).mp before).1
    rw [if_neg other, viewAt_of_lookup before]
  have first : h ∉ F.keys (s.part h).map → (SeqEntry.raise ⟨0, 0⟩ seqno deleted ptr).view =
      (s.viewAt F h).raise seqno deleted ptr := by
    intro absent
    rw [SeqEntry.view_raise _ low, SeqEntry.view_default, viewAt_of_absent absent]
  unfold noteSeqno at held
  dsimp only at held
  split_ifs at held with member shut fits vacant
  · rw [view_write member held, SeqEntry.view_raise _ low, ← viewAt_of_member member]
    split
    · next same => rw [same]
    · rfl
  · exact unmoved member held
  · rw [lookup_insert] at held
    split at held
    · next same =>
      cases held
      rw [if_pos same, same, first member]
    · exact unmoved member held
  · exact unmoved member held
  · rw [lookup_insert] at held
    split at held
    · next same =>
      cases held
      rw [if_pos same, same, first member]
    · next other =>
      obtain ⟨v', there, alike⟩ := lookup_evictSeq held
      rw [if_neg other, alike, viewAt_of_lookup there]

/-- A report looks at the view: its comparison leaves the used bit out, and a deleted word is no seqno. -/
theorem view_noteValuePtr (low : seqno.toNat < 2 ^ 62) (held : (s.noteValuePtr F h seqno ptr).lookup F h' = some v) :
    v.view = if h' = h then (s.viewAt F h').point seqno ptr else s.viewAt F h' := by
  unfold noteValuePtr at held
  dsimp only at held
  split at held
  · next found =>
    obtain ⟨member, word⟩ := found
    have version := (SeqEntry.unused_eq_iff _ low).mp word
    rw [view_write member held]
    split
    · next same =>
      rw [same, viewAt_of_member member]
      exact (if_pos version).symm
    · rfl
  · next missed =>
    rw [viewAt_of_lookup held]
    split
    · next same =>
      subst same
      obtain ⟨member, rfl⟩ := (SeqPart.lookup_eq_some F).mp held
      exact (if_neg fun version => missed ⟨member, (SeqEntry.unused_eq_iff _ low).mpr version⟩).symm
    · rfl

/-- A hint changes nothing that can be seen. -/
theorem view_seqnoHint (held : (s.seqnoHint F h).1.lookup F h' = some v) : v.view = s.viewAt F h' := by
  unfold seqnoHint at held
  dsimp only at held
  split at held
  · next found =>
    rw [view_write found.1 held, SeqEntry.view_use, ← viewAt_of_member found.1]
    split
    · next same => rw [same]
    · rfl
  · exact (viewAt_of_lookup held).symm

/-- A hint answers from the view. -/
theorem seqnoHint_snd (F : F14 L) (s : SeqShard L) (h : UInt64) : (s.seqnoHint F h).2 = (s.viewAt F h).hint := by
  unfold seqnoHint
  dsimp only
  split
  · next found =>
    rw [viewAt_of_member found.1]
    exact (if_neg (Bool.eq_false_iff.mp found.2)).symm
  · next missed =>
    rcases Decidable.em (h ∈ F.keys (s.part h).map) with member | absent
    · have gone : ((s.part h).entry h).deleted = true := Bool.eq_true_of_not_eq_false fun live => missed ⟨member, live⟩
      rw [viewAt_of_member member]
      exact (if_pos gone).symm
    · rw [viewAt_of_absent absent]
      rfl

end SeqShard

namespace SeqCall

def key : SeqCall → DocKey
  | .noteSeqno key .. | .markPersisted key .. | .putIfAbsent key _ | .noteValuePtr key .. | .seqnoHint key => key

/-- Every seqno keeps clear of the flag bits. -/
def Below : SeqCall → Prop
  | .noteSeqno _ seqno _ _ | .markPersisted _ seqno _ | .putIfAbsent _ seqno | .noteValuePtr _ seqno _ =>
    seqno.toNat < 2 ^ 62
  | .seqnoHint _ => True

instance (call : SeqCall) : Decidable call.Below :=
  match call with
  | .noteSeqno .. | .markPersisted .. | .putIfAbsent .. | .noteValuePtr .. => inferInstanceAs (Decidable (_ < _))
  | .seqnoHint _ => .isTrue trivial

/-- The version a call reports a location for. -/
def report : SeqCall → Option (DocKey × UInt64 × UInt64)
  | .noteSeqno key seqno false valuePtr | .noteValuePtr key seqno valuePtr => some (key, seqno, valuePtr)
  | .noteSeqno _ _ true _ | .markPersisted .. | .putIfAbsent .. | .seqnoHint _ => none

/-- What a call does to what can be seen of its key. -/
def effect : SeqCall → SeqView → SeqView
  | .noteSeqno _ seqno deleted valuePtr, w => if seqno = 0 then w else w.raise seqno deleted valuePtr
  | .markPersisted _ seqno deleted, w => if seqno = 0 then w else w.raise seqno deleted 0
  | .putIfAbsent _ seqno, w => if seqno = 0 then w else w.raise seqno false 0
  | .noteValuePtr _ seqno valuePtr, w => if seqno = 0 ∨ valuePtr = 0 then w else w.point seqno valuePtr
  | .seqnoHint _, w => w

/-- A call leaves a view alone, or without a location, or with the version it reports one for. -/
theorem effect_cases (call : SeqCall) (w : SeqView) :
    call.effect w = w ∨ (call.effect w).valuePtr = 0 ∨
      ∃ seqno ptr, call.report = some (call.key, seqno, ptr) ∧ call.effect w = ⟨seqno, false, ptr⟩ := by
  have noted : ∀ (key : DocKey) (seqno : UInt64) (deleted : Bool) (ptr : UInt64), w.raise seqno deleted ptr = w ∨
      (w.raise seqno deleted ptr).valuePtr = 0 ∨ ∃ seqno' ptr', report (.noteSeqno key seqno deleted ptr) =
        some (key, seqno', ptr') ∧ w.raise seqno deleted ptr = ⟨seqno', false, ptr'⟩ := by
    intro key seqno deleted ptr
    refine (w.raise_cases seqno deleted ptr).imp_right (Or.imp_right ?_)
    rintro ⟨rfl, new⟩
    exact ⟨seqno, ptr, rfl, new⟩
  have silent : ∀ (seqno : UInt64) (deleted : Bool), w.raise seqno deleted 0 = w ∨
      (w.raise seqno deleted 0).valuePtr = 0 := by
    intro seqno deleted
    rcases w.raise_cases seqno deleted 0 with same | none | ⟨_, new⟩
    · exact .inl same
    · exact .inr none
    · exact .inr (by rw [new])
  unfold effect
  cases call with
  | noteSeqno key seqno deleted ptr =>
    dsimp only
    split
    · exact .inl rfl
    · exact noted key seqno deleted ptr
  | markPersisted key seqno deleted =>
    dsimp only
    split
    · exact .inl rfl
    · exact (silent seqno deleted).imp_right .inl
  | putIfAbsent key seqno =>
    dsimp only
    split
    · exact .inl rfl
    · exact (silent seqno false).imp_right .inl
  | noteValuePtr key seqno ptr =>
    dsimp only
    split
    · exact .inl rfl
    · refine (w.point_cases seqno ptr).imp_right fun new => .inr ⟨seqno, ptr, rfl, new⟩
  | seqnoHint key => exact .inl rfl

end SeqCall

namespace SeqIndex

variable {L : Type*} {F : F14 L} {hash : DocKey → UInt64} {shardMask : UInt64} {x : SeqIndex L} {key key' : DocKey}
  {s : SeqShard L} {v : SeqEntry}

/-- What can be seen of a key. -/
def viewOf (F : F14 L) (hash : DocKey → UInt64) (shardMask : UInt64) (x : SeqIndex L) (key : DocKey) : SeqView :=
  (x.shard hash shardMask key).viewAt F (hash key)

theorem viewOf_of_find (held : x.find F hash shardMask key = some v) : x.viewOf F hash shardMask key = v.view :=
  SeqShard.viewAt_of_lookup held

/-- A change of one shard shows under its key's hash as it does in the shard. -/
theorem view_alter {f : SeqView → SeqView}
    (here : ∀ h v, s.lookup F h = some v → v.view =
      if h = hash key then f ((x.shard hash shardMask key).viewAt F h)
      else (x.shard hash shardMask key).viewAt F h)
    (held : (x.alter hash shardMask key s).find F hash shardMask key' = some v) :
    v.view = if hash key' = hash key then f (x.viewOf F hash shardMask key')
      else x.viewOf F hash shardMask key' := by
  rw [find, shard_alter] at held
  split at held
  · next same =>
    rw [here _ _ held, viewOf, shard, shard, same]
  · next apart =>
    have other : hash key' ≠ hash key := fun collide => apart (by rw [shardFor, shardFor, collide])
    rw [if_neg other, viewOf_of_find held]

/-- What can be seen of a key after a call: what the call makes of it, if it is the call's, and what there was
if not. -/
theorem view_next {call : SeqCall} (below : call.Below)
    (held : (x.next F hash shardMask call).find F hash shardMask key = some v) :
    v.view = if hash key = hash call.key then call.effect (x.viewOf F hash shardMask key)
      else x.viewOf F hash shardMask key := by
  have unmoved : x.find F hash shardMask key = some v →
      v.view = if hash key = hash call.key then x.viewOf F hash shardMask key
        else x.viewOf F hash shardMask key := by
    intro before
    rw [ite_self, viewOf_of_find before]
  unfold SeqCall.effect
  unfold SeqIndex.next at held
  cases call with
  | noteSeqno key' seqno deleted ptr =>
    dsimp only at held ⊢
    split at held
    · next zero =>
      simp only [if_pos zero]
      exact unmoved held
    · next noted =>
      simp only [if_neg noted]
      exact view_alter (f := fun w => w.raise seqno deleted ptr) (fun h v => SeqShard.view_note below) held
  | markPersisted key' seqno deleted =>
    dsimp only at held ⊢
    split at held
    · next zero =>
      simp only [if_pos zero]
      exact unmoved held
    · next noted =>
      simp only [if_neg noted]
      exact view_alter (f := fun w => w.raise seqno deleted 0) (fun h v => SeqShard.view_note below) held
  | putIfAbsent key' seqno =>
    dsimp only at held ⊢
    split at held
    · next zero =>
      simp only [if_pos zero]
      exact unmoved held
    · next noted =>
      simp only [if_neg noted]
      exact view_alter (f := fun w => w.raise seqno false 0) (fun h v => SeqShard.view_note below) held
  | noteValuePtr key' seqno ptr =>
    dsimp only at held ⊢
    split at held
    · next zero =>
      simp only [if_pos zero]
      exact unmoved held
    · next noted =>
      simp only [if_neg noted]
      exact view_alter (f := fun w => w.point seqno ptr) (fun h v => SeqShard.view_noteValuePtr below) held
  | seqnoHint key' =>
    refine view_alter (f := fun w => w) (fun h v after => ?_) held
    rw [ite_self]
    exact SeqShard.view_seqnoHint after

/-- A location in a view was reported for its version, of a key with this hash. -/
def Reported (hash : DocKey → UInt64) (calls : List SeqCall) (key : DocKey) (w : SeqView) : Prop :=
  w.valuePtr ≠ 0 → w.deleted = false ∧
    ∃ call ∈ calls, hash key = hash call.key ∧ call.report = some (call.key, w.seqno, w.valuePtr)

theorem Reported.later {calls : List SeqCall} {w : SeqView} (before : Reported hash calls key w) (call : SeqCall) :
    Reported hash (calls ++ [call]) key w := by
  intro some
  obtain ⟨live, past, member, reported⟩ := before some
  exact ⟨live, past, List.mem_append_left _ member, reported⟩

theorem Reported.effect {calls : List SeqCall} {w : SeqView} (before : Reported hash calls key w) {call : SeqCall}
    (same : hash key = hash call.key) : Reported hash (calls ++ [call]) key (call.effect w) := by
  rcases call.effect_cases w with kept | none | ⟨seqno, ptr, reported, new⟩
  · rw [kept]
    exact before.later call
  · intro some
    exact absurd none some
  · rw [new]
    intro _
    exact ⟨rfl, call, List.mem_append_right _ (List.mem_singleton.mpr rfl), same, reported⟩

theorem reported_of_exec {calls : List SeqCall} {maxBytes : ℕ} (below : ∀ call ∈ calls, call.Below)
    (run : exec (step F hash shardMask) (start F shardMask maxBytes) calls = some x) (key : DocKey) :
    Reported hash calls key (x.viewOf F hash shardMask key) := by
  have start : ∀ key, Reported hash [] key ((start F shardMask maxBytes).viewOf F hash shardMask key) := by
    intro key some
    rw [viewOf, SeqShard.viewAt_of_absent] at some
    · exact absurd rfl some
    · intro member
      have held : hash key ∈ F.keys F.empty := member
      rw [F.keys_empty] at held
      cases held
  refine exec_history (P := fun calls x => (∀ call ∈ calls, call.Below) →
    ∀ key, Reported hash calls key (x.viewOf F hash shardMask key)) (fun _ => start) ?_ run below key
  intro past x call next before taken below key
  cases taken
  have earlier := before (fun call member => below call (List.mem_append_left _ member)) key
  have now := below call (List.mem_append_right _ (List.mem_singleton.mpr rfl))
  cases held : (x.next F hash shardMask call).find F hash shardMask key with
  | none =>
    intro some
    rw [viewOf, SeqShard.viewAt, show SeqShard.lookup F _ _ = none from held] at some
    exact absurd rfl some
  | some v =>
    rw [viewOf_of_find held, view_next now held]
    split
    · next same => exact earlier.effect same
    · exact earlier.later call

/-- In every state that calls with seqnos below the flag bits lead to, a location that the index holds for a key
was reported for it with exactly the seqno it holds, and the key is not deleted. The used bit is not seen: a
hint answers from the view without it, and so does every call change what is there. -/
theorem value_pointers_match_version {calls : List SeqCall} {maxBytes : ℕ} (below : ∀ call ∈ calls, call.Below)
    (run : exec (step F hash shardMask) (start F shardMask maxBytes) calls = some x) :
    (∀ key v, (∀ call ∈ calls, hash key = hash call.key → key = call.key) →
        x.find F hash shardMask key = some v → v.valuePtr ≠ 0 →
        v.deleted = false ∧ ∃ call ∈ calls, call.report = some (key, v.current, v.valuePtr)) ∧
      (∀ key, ((x.shard hash shardMask key).seqnoHint F (hash key)).2 = (x.viewOf F hash shardMask key).hint) ∧
      ∀ call : SeqCall, call.Below → ∀ key v, (x.next F hash shardMask call).find F hash shardMask key = some v →
        v.view = if hash key = hash call.key then call.effect (x.viewOf F hash shardMask key)
          else x.viewOf F hash shardMask key := by
  refine ⟨?_, fun key => SeqShard.seqnoHint_snd F _ _, fun call below key v => view_next below⟩
  intro key v apart held some
  have reported := reported_of_exec below run key
  rw [viewOf_of_find held] at reported
  obtain ⟨live, call, member, same, report⟩ := reported some
  rw [← apart call member same] at report
  exact ⟨live, call, member, report⟩

private abbrev sizes (key : DocKey) : UInt64 := .ofNat key.2.length

/-- A warmup with a location, a hint, and two reports, of which the second is for an older version. -/
theorem value_pointers_match_version_reported : ∃ x : SeqIndex (List UInt64),
    (∃ v, x.find .ofList sizes 0 (0, []) = some v ∧ v.used = true ∧ v.valuePtr = 9) ∧
      ∀ v, x.find .ofList sizes 0 (0, []) = some v → v.valuePtr ≠ 0 → v.deleted = false ∧
        ∃ call ∈ [SeqCall.noteSeqno (0, []) 10 false 7, .seqnoHint (0, []), .noteValuePtr (0, []) 10 9,
            .noteValuePtr (0, []) 8 5], call.report = some ((0, []), v.current, v.valuePtr) := by
  have run : (exec (step .ofList sizes 0) (start .ofList 0 0) [.noteSeqno (0, []) 10 false 7, .seqnoHint (0, []),
      .noteValuePtr (0, []) 10 9, .noteValuePtr (0, []) 8 5]).map (fun x =>
        (x.find .ofList sizes 0 (0, [])).map fun v => (v.used, v.valuePtr)) = some (some (true, 9)) := by
    decide +kernel
  obtain ⟨x, run, seen⟩ := Option.map_eq_some_iff.mp run
  obtain ⟨v, held, bits⟩ := Option.map_eq_some_iff.mp seen
  refine ⟨x, ⟨v, held, congrArg Prod.fst bits, congrArg Prod.snd bits⟩, fun v held some => ?_⟩
  have low : ∀ call ∈ [SeqCall.noteSeqno (0, []) 10 false 7, .seqnoHint (0, []), .noteValuePtr (0, []) 10 9,
      .noteValuePtr (0, []) 8 5], call.Below := by decide
  refine (value_pointers_match_version low run).1 (0, []) v ?_ held some
  simp [SeqCall.key]

end SeqIndex

end FluxKV.Cache
