import FluxKV.Engine.KeyOrder
import Mathlib.Data.List.Sort
import Mathlib.Data.Rat.Init
import Mathlib.Algebra.Order.Ring.Rat

/-! # Sorting and deduplicating a write batch

A writer may sort the batch it swept and keep only the newest write of each key. The decision samples
the batch; the sort works on `SortKey`s and the dedupe drops every element followed by one of the same
key. `dedupe_map` gives both outputs in closed form over positions of the batch, and
`sortBatch_transparent` says what the step does to the batch and to the store.
-/

namespace FluxKV.Engine

open Protocol

/-- `enum class BatchSort`, the value of `--batch-sort`. -/
inductive BatchSort where
  | auto
  | always
  | never
deriving DecidableEq, Repr

def kDupSampleMax : ℕ := 128

/-- How many of the sampled words were already seen. -/
def countDups : List UInt64 → List UInt64 → ℕ
  | _, [] => 0
  | seen, word :: rest => (if word ∈ seen then 1 else 0) + countDups (word :: seen) rest

/-- Fraction of a strided sample of the batch that repeats an earlier sampled key word. -/
def estimateDupFraction (keys : List Bytes) : ℚ :=
  let want := min keys.length kDupSampleMax
  let stride := max 1 (keys.length / want)
  let sample := (List.range want).filterMap fun j => keys[j * stride]?
  if 1 < sample.length then countDups [] (sample.map keyPrefix) / sample.length else 0

/-- Whether `executePersist` sorts the batch with these keys. -/
def doSort (mode : BatchSort) (threshold : ℚ) (keys : List Bytes) : Bool :=
  decide (1 < keys.length ∧
    (mode = .always ∨ mode = .auto ∧ threshold ≤ estimateDupFraction keys))

section Dedupe

variable (fullKey : ℕ → Bytes)

/-- The sorted array of the first `count` positions. -/
def sortedKeys (count : ℕ) : List SortKey :=
  ((List.range count).map (sortKey fullKey)).insertionSort fun a b => less fullKey b a = false

/-- Newest write per key wins; it is the last of each equal run. Kept first, then dropped. -/
def dedupe : List SortKey → List SortKey × List SortKey
  | [] => ([], [])
  | [a] => ([a], [])
  | a :: b :: rest =>
    let tail := dedupe (b :: rest)
    if sameKey fullKey a b then (tail.1, a :: tail.2) else (a :: tail.1, tail.2)

/-- No later position of the list holds the same key. -/
def IsLast (positions : List ℕ) (i : ℕ) : Prop := ∀ j ∈ positions, i < j → fullKey j ≠ fullKey i

instance (positions : List ℕ) : DecidablePred (IsLast fullKey positions) := fun i =>
  inferInstanceAs (Decidable (∀ j ∈ positions, i < j → fullKey j ≠ fullKey i))

variable {fullKey}

theorem Before.key_le {i j : ℕ} (before : Before fullKey i j) : fullKey i ≤ fullKey j := by
  rcases before with less | ⟨same, _⟩
  · exact List.le_of_lt less
  · exact same ▸ List.le_refl _

/-- The order positions are sorted by: not strictly after. -/
private def NotAfter (fullKey : ℕ → Bytes) (i j : ℕ) : Prop :=
  less fullKey (sortKey fullKey j) (sortKey fullKey i) = false

private theorem notAfter_iff {i j : ℕ} : NotAfter fullKey i j ↔ i = j ∨ Before fullKey i j := by
  rw [NotAfter, ← Bool.not_eq_true, less_iff]
  constructor
  · intro notAfter
    rcases Before.trichotomy fullKey i j with before | same | after
    · exact .inr before
    · exact .inl same
    · exact (notAfter after).elim
  · rintro (rfl | before) after
    · exact Before.irrefl _ after
    · exact Before.irrefl _ (before.trans after)

private instance : DecidableRel (NotAfter fullKey) := fun i j =>
  inferInstanceAs (Decidable (less fullKey (sortKey fullKey j) (sortKey fullKey i) = false))

private instance : Std.Total (NotAfter fullKey) where
  total i j := by
    simp only [notAfter_iff]
    rcases Before.trichotomy fullKey i j with before | same | after
    · exact .inl (.inr before)
    · exact .inl (.inl same)
    · exact .inr (.inr after)

private instance : IsTrans ℕ (NotAfter fullKey) where
  trans i j k first second := by
    simp only [notAfter_iff] at first second ⊢
    rcases first with rfl | first
    · exact second
    · rcases second with rfl | second
      · exact .inr first
      · exact .inr (first.trans second)

/-- Sorting the `SortKey`s is sorting the positions by key, then by arrival. -/
theorem sortedKeys_spec (fullKey : ℕ → Bytes) (count : ℕ) :
    ∃ positions : List ℕ, sortedKeys fullKey count = positions.map (sortKey fullKey) ∧
      positions.Perm (List.range count) ∧ positions.Pairwise (Before fullKey) := by
  refine ⟨(List.range count).insertionSort (NotAfter fullKey), ?_, List.perm_insertionSort .., ?_⟩
  · exact (List.map_insertionSort (NotAfter fullKey) (fun a b => less fullKey b a = false) (sortKey fullKey)
      (List.range count) fun _ _ _ _ => Iff.rfl).symm
  · have perm := List.perm_insertionSort (NotAfter fullKey) (List.range count)
    have distinct : ((List.range count).insertionSort (NotAfter fullKey)).Nodup :=
      perm.nodup_iff.mpr List.nodup_range
    apply (distinct.and (List.pairwise_insertionSort (NotAfter fullKey) _)).imp
    intro i j pair
    exact (notAfter_iff.mp pair.2).resolve_left pair.1

private theorem isLast_cons_tail {a i : ℕ} {rest : List ℕ} (before : Before fullKey a i) :
    IsLast fullKey (a :: rest) i ↔ IsLast fullKey rest i := by
  simp only [IsLast, List.forall_mem_cons, and_iff_right_iff_imp]
  intro _ later same
  rcases before with less | ⟨_, earlier⟩
  · exact List.lt_irrefl _ (same ▸ less)
  · omega

private theorem isLast_head_iff {a b : ℕ} {rest : List ℕ}
    (sorted : (a :: b :: rest).Pairwise (Before fullKey)) :
    IsLast fullKey (a :: b :: rest) a ↔ fullKey a ≠ fullKey b := by
  obtain ⟨first, second⟩ := List.pairwise_cons.mp sorted
  have next := first b List.mem_cons_self
  constructor
  · intro last same
    have later : a < b := (next.resolve_left fun less => List.lt_irrefl _ (same ▸ less)).2
    exact last b (List.mem_cons_of_mem _ List.mem_cons_self) later same.symm
  · intro differ j member later same
    have less : fullKey a < fullKey b := next.resolve_right fun tie => differ tie.1
    rcases List.mem_cons.mp member with rfl | member
    · omega
    · have above : fullKey b ≤ fullKey j := by
        rcases List.mem_cons.mp member with rfl | member
        · exact List.le_refl _
        · exact ((List.pairwise_cons.mp second).1 j member).key_le
      exact List.not_lt.mpr above (same ▸ less)

/-- On a sorted array the dedupe keeps exactly the last position of each key. -/
theorem dedupe_map {positions : List ℕ} (sorted : positions.Pairwise (Before fullKey)) :
    dedupe fullKey (positions.map (sortKey fullKey)) =
      ((positions.filter (IsLast fullKey positions)).map (sortKey fullKey),
        (positions.filter fun i => ¬ IsLast fullKey positions i).map (sortKey fullKey)) := by
  induction positions with
  | nil => rfl
  | cons a rest ih =>
    obtain ⟨first, tail⟩ := List.pairwise_cons.mp sorted
    have same : ∀ i ∈ rest, (IsLast fullKey (a :: rest) i ↔ IsLast fullKey rest i) :=
      fun i member => isLast_cons_tail (first i member)
    have kept : rest.filter (IsLast fullKey (a :: rest)) = rest.filter (IsLast fullKey rest) :=
      List.filter_congr fun i member => by simpa using same i member
    have dropped : rest.filter (fun i => ¬ IsLast fullKey (a :: rest) i) =
        rest.filter fun i => ¬ IsLast fullKey rest i :=
      List.filter_congr fun i member => by simpa using same i member
    cases rest with
    | nil =>
      have last : IsLast fullKey [a] a := by simp [IsLast]
      simp [dedupe, last]
    | cons b rest =>
      have head := isLast_head_iff sorted
      rw [List.map_cons, List.map_cons, dedupe, ← List.map_cons, ih tail]
      by_cases equal : fullKey a = fullKey b
      · have matched : sameKey fullKey (sortKey fullKey a) (sortKey fullKey b) = true :=
          (sameKey_iff fullKey a b).mpr equal
        have superseded : ¬ IsLast fullKey (a :: b :: rest) a := fun last => head.mp last equal
        rw [if_pos matched, List.filter_cons_of_neg (a := a) (by simpa using superseded), kept,
          List.filter_cons_of_pos (a := a) (by simpa using superseded), dropped, List.map_cons]
      · have unmatched : ¬ sameKey fullKey (sortKey fullKey a) (sortKey fullKey b) = true :=
          fun matched => equal ((sameKey_iff fullKey a b).mp matched)
        have newest := head.mpr equal
        rw [if_neg unmatched, List.filter_cons_of_pos (a := a) (by simpa using newest), kept,
          List.filter_cons_of_neg (a := a) (by simpa using newest), dropped, List.map_cons]

end Dedupe

/-- The key of the request at a position of the batch. -/
def fullKey (batch : List Request) (i : ℕ) : Bytes := (batch[i]?.map Request.key).getD []

/-- The sort-and-dedupe step of `executePersist`: the requests kept, in key order, and the dropped. -/
def sortBatch (batch : List Request) : List Request × List Request :=
  let parts := dedupe (fullKey batch) (sortedKeys (fullKey batch) batch.length)
  (parts.1.filterMap fun k => batch[k.idx]?, parts.2.filterMap fun k => batch[k.idx]?)

private theorem fullKey_of_getElem? {batch : List Request} {i : ℕ} {r : Request} (here : batch[i]? = some r) :
    fullKey batch i = r.key := by
  simp [fullKey, here]

/-- Both outputs of the step as positions of the batch. -/
theorem sortBatch_positions (batch : List Request) : ∃ kept dropped : List ℕ,
    sortBatch batch = (kept.filterMap (batch[·]?), dropped.filterMap (batch[·]?)) ∧
    (kept ++ dropped).Perm (List.range batch.length) ∧
    (kept.Pairwise fun i j => fullKey batch i < fullKey batch j) ∧
    ∀ i < batch.length, (i ∈ kept ↔ ∀ j < batch.length, i < j → fullKey batch j ≠ fullKey batch i) := by
  obtain ⟨positions, sorted, perm, ordered⟩ := sortedKeys_spec (fullKey batch) batch.length
  refine ⟨positions.filter (IsLast (fullKey batch) positions),
    positions.filter fun i => ¬ IsLast (fullKey batch) positions i, ?_, ?_, ?_, ?_⟩
  · simp only [sortBatch, sorted, dedupe_map ordered, List.filterMap_map, Function.comp_def, sortKey]
  · have split := List.filter_append_perm (fun i => decide (IsLast (fullKey batch) positions i)) positions
    simp only [← decide_not] at split
    exact split.trans perm
  · have kept := ordered.filter (IsLast (fullKey batch) positions)
    refine kept.imp_of_mem fun {i j} first second before => ?_
    rcases before with less | ⟨same, earlier⟩
    · exact less
    · have last : IsLast (fullKey batch) positions i := by simpa using (List.mem_filter.mp first).2
      exact (last j (List.mem_filter.mp second).1 earlier same.symm).elim
  · intro i bound
    have present : i ∈ positions := perm.mem_iff.mpr (List.mem_range.mpr bound)
    simp only [List.mem_filter, present, true_and, decide_eq_true_eq, IsLast, perm.mem_iff, List.mem_range]

private theorem filterMap_range (batch : List Request) :
    (List.range batch.length).filterMap (batch[·]?) = batch := by
  induction batch with
  | nil => rfl
  | cons r rest ih => simp [List.range_succ_eq_map, List.filterMap_map, ih]

/-- Every request of the batch is kept or dropped, once. -/
theorem sortBatch_perm (batch : List Request) :
    ((sortBatch batch).1 ++ (sortBatch batch).2).Perm batch := by
  obtain ⟨kept, dropped, parts, perm, -, -⟩ := sortBatch_positions batch
  rw [parts, ← List.filterMap_append]
  exact (perm.filterMap _).trans (.of_eq (filterMap_range batch))

/-- The keys kept rise strictly in byte order. -/
theorem sortBatch_sorted (batch : List Request) :
    ((sortBatch batch).1.map Request.key).Pairwise (· < ·) := by
  obtain ⟨kept, dropped, parts, -, ordered, -⟩ := sortBatch_positions batch
  rw [parts, List.pairwise_map]
  apply ordered.filterMap _
  intro i j less r first w second
  rwa [fullKey_of_getElem? first, fullKey_of_getElem? second] at less

/-- So each key is kept once. -/
theorem sortBatch_keys_nodup (batch : List Request) : ((sortBatch batch).1.map Request.key).Nodup := by
  refine (sortBatch_sorted batch).imp fun {key key'} less (equal : key = key') => ?_
  subst equal
  exact List.lt_irrefl key less

/-- Each key's last-arrived request is kept. -/
theorem mem_sortBatch_of_last (before : List Request) {after : List Request} {r : Request}
    (last : ∀ w ∈ after, w.key ≠ r.key) : r ∈ (sortBatch (before ++ r :: after)).1 := by
  obtain ⟨kept, dropped, parts, -, -, member⟩ := sortBatch_positions (before ++ r :: after)
  have here : (before ++ r :: after)[before.length]? = some r := by simp
  have chosen : before.length ∈ kept := by
    apply (member before.length (by simp)).mpr
    intro j bound later
    obtain ⟨w, there⟩ : ∃ w, (before ++ r :: after)[j]? = some w := ⟨_, List.getElem?_eq_getElem bound⟩
    rw [fullKey_of_getElem? here, fullKey_of_getElem? there]
    obtain ⟨gap, rfl⟩ : ∃ gap, j = before.length + (gap + 1) := ⟨j - (before.length + 1), by omega⟩
    apply last w
    rw [List.getElem?_append_right (by omega), Nat.add_sub_cancel_left, List.getElem?_cons_succ] at there
    exact List.mem_of_getElem? there
  rw [parts]
  exact List.mem_filterMap.mpr ⟨_, chosen, here⟩

/-- The step keeps, for each key, exactly the write that arrived last. -/
theorem lastWrite_sortBatch (batch : List Request) (key : Bytes) :
    lastWrite key (sortBatch batch).1 = lastWrite key batch := by
  have subset : ∀ w ∈ (sortBatch batch).1, w ∈ batch := fun w member =>
    (sortBatch_perm batch).mem_iff.mp (List.mem_append_left _ member)
  cases found : lastWrite key batch with
  | none => exact lastWrite_eq_none_iff.mpr fun w member => lastWrite_eq_none_iff.mp found w (subset w member)
  | some r =>
    obtain ⟨before, after, rfl, rfl, last⟩ := lastWrite_eq_some_iff.mp found
    obtain ⟨first, rest, split⟩ := List.append_of_mem (mem_sortBatch_of_last before last)
    refine lastWrite_eq_some_iff.mpr ⟨first, rest, split, rfl, fun w member same => ?_⟩
    have distinct := sortBatch_keys_nodup (before ++ r :: after)
    rw [split, List.map_append, List.map_cons] at distinct
    have fresh := (List.nodup_cons.mp (List.nodup_append.mp distinct).2.1).1
    exact fresh (same ▸ List.mem_map_of_mem member)

/-- The batch `executePersist` builds its operations from, and the duplicates it dropped. -/
def planBatch (mode : BatchSort) (threshold : ℚ) (batch : List Request) : List Request × List Request :=
  if doSort mode threshold (batch.map Request.key) then sortBatch batch else (batch, [])

/-- A batch whose every write is kept: it is not sorted, or no key repeats in it. -/
def KeepsAll (mode : BatchSort) (threshold : ℚ) (batch : List Request) : Prop :=
  doSort mode threshold (batch.map Request.key) = false ∨ (batch.map Request.key).Nodup

instance (mode : BatchSort) (threshold : ℚ) (batch : List Request) : Decidable (KeepsAll mode threshold batch) :=
  inferInstanceAs (Decidable (_ ∨ _))

section Plan

variable (mode : BatchSort) (threshold : ℚ) (batch : List Request)

theorem planBatch_perm :
    ((planBatch mode threshold batch).1 ++ (planBatch mode threshold batch).2).Perm batch := by
  unfold planBatch
  split
  · exact sortBatch_perm batch
  · rw [List.append_nil]

/-- Of the writes of one key, those kept stand in arrival order. -/
theorem planBatch_filter_sublist (key : Bytes) :
    ((planBatch mode threshold batch).1.filter fun r => r.key = key).Sublist
      (batch.filter fun r => r.key = key) := by
  unfold planBatch
  split
  · have single : ((sortBatch batch).1.filter fun r => r.key = key).Pairwise fun _ _ => False := by
      have distinct := List.pairwise_map.mp (sortBatch_keys_nodup batch)
      refine (distinct.filter _).imp_of_mem fun {r w} first second differ => differ ?_
      have left : r.key = key := by simpa using (List.mem_filter.mp first).2
      have right : w.key = key := by simpa using (List.mem_filter.mp second).2
      exact left.trans right.symm
    have last := lastWrite_sortBatch batch key
    unfold lastWrite at last
    revert single last
    cases (sortBatch batch).1.filter fun r => r.key = key with
    | nil => intro _ _; exact List.nil_sublist _
    | cons r rest =>
      intro single last
      obtain rfl : rest = [] := by
        cases rest with
        | nil => rfl
        | cons w rest => exact ((List.pairwise_cons.mp single).1 w List.mem_cons_self).elim
      exact List.singleton_sublist.mpr (List.mem_of_getLast? last.symm)
  · exact List.Sublist.refl _

/-- A write is kept, or a later one of its key in the batch is. -/
theorem planBatch_superseded {r : Request} (member : r ∈ batch) : r ∈ (planBatch mode threshold batch).1 ∨
    ∃ w ∈ (planBatch mode threshold batch).1, w.key = r.key ∧ [r, w].Sublist batch := by
  unfold planBatch
  split
  · by_cases kept : r ∈ (sortBatch batch).1
    · exact .inl kept
    · refine .inr ?_
      cases found : lastWrite r.key batch with
      | none => exact (lastWrite_eq_none_iff.mp found r member rfl).elim
      | some w =>
        obtain ⟨before, after, rfl, same, last⟩ := lastWrite_eq_some_iff.mp found
        have newest : w ∈ (sortBatch (before ++ w :: after)).1 := mem_sortBatch_of_last before (same ▸ last)
        refine ⟨w, newest, same, ?_⟩
        have earlier : r ∈ before := by
          rcases List.mem_append.mp member with earlier | member
          · exact earlier
          · rcases List.mem_cons.mp member with rfl | later
            · exact (kept newest).elim
            · exact (last r later rfl).elim
        exact (List.singleton_sublist.mpr earlier).append
          (List.singleton_sublist.mpr (List.mem_cons_self (a := w) (l := after)))
  · exact .inl member

theorem lastWrite_planBatch (key : Bytes) :
    lastWrite key (planBatch mode threshold batch).1 = lastWrite key batch := by
  unfold planBatch
  split
  · exact lastWrite_sortBatch batch key
  · rfl

/-- The step drops nothing exactly if the batch is not sorted or has no key twice. -/
theorem planBatch_dropped_eq_nil_iff :
    (planBatch mode threshold batch).2 = [] ↔ KeepsAll mode threshold batch := by
  have perm := planBatch_perm mode threshold batch
  constructor
  · intro none
    by_cases sorted : doSort mode threshold (batch.map Request.key) = true
    · refine .inr ?_
      rw [none, List.append_nil] at perm
      simp only [planBatch, sorted, if_true] at perm
      exact (perm.map Request.key).nodup_iff.mp (sortBatch_keys_nodup batch)
    · exact .inl (Bool.eq_false_iff.mpr sorted)
  · rintro (unsorted | distinct)
    · simp [planBatch, unsorted]
    · have whole : (planBatch mode threshold batch).1 ++ (planBatch mode threshold batch).2 |>.Nodup :=
        perm.nodup_iff.mpr (List.Nodup.of_map _ distinct)
      apply List.eq_nil_iff_forall_not_mem.mpr
      intro r dropped
      have member := perm.mem_iff.mp (List.mem_append_right _ dropped)
      rcases planBatch_superseded mode threshold batch member with kept | ⟨w, _, same, pair⟩
      · exact List.disjoint_of_nodup_append whole kept dropped
      · have keys := List.Nodup.sublist (pair.map Request.key) distinct
        simp [same] at keys

end Plan

/-- Sorting is transparent: the step splits the positions of the batch into kept and dropped, keeps
each key's last-arrived request in strictly rising byte order of the keys, and leaves every key of the
store with the content that writing the whole batch in arrival order leaves. -/
theorem sortBatch_transparent (batch : List Request) :
    (∃ kept dropped : List ℕ,
      sortBatch batch = (kept.filterMap (batch[·]?), dropped.filterMap (batch[·]?)) ∧
      (kept ++ dropped).Perm (List.range batch.length) ∧
      ∀ i ∈ kept, ∀ j, i < j → ∀ r w, batch[i]? = some r → batch[j]? = some w → w.key ≠ r.key) ∧
    ((sortBatch batch).1.map Request.key).Pairwise (· < ·) ∧
    ∀ (store : Store) (last last' : ℕ) (key : Bytes),
      (store.writeDocs (assignSeqnos last (sortBatch batch).1) key).map Version.content =
        (store.writeDocs (assignSeqnos last' batch) key).map Version.content := by
  refine ⟨?_, sortBatch_sorted batch, fun store last last' key => ?_⟩
  · obtain ⟨kept, dropped, parts, perm, -, member⟩ := sortBatch_positions batch
    refine ⟨kept, dropped, parts, perm, fun i chosen j later r w here there => ?_⟩
    have inBatch : i < batch.length := (List.getElem?_eq_some_iff.mp here).1
    have other := (member i inBatch).mp chosen j (List.getElem?_eq_some_iff.mp there).1 later
    rwa [fullKey_of_getElem? here, fullKey_of_getElem? there] at other
  · simp only [Store.writeDocs_content, assignSeqnos_map_fst, lastWrite_sortBatch]

end FluxKV.Engine
