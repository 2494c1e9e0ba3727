import FluxKV.ToMathlib.Counting

/-! # The seqno index is charged as it grows

The index takes its memory first from the document cache, down to a floor, and then from the block caches of the
store. Neither is told of every byte: the budget follows in steps, or when it comes to the floor, and the reserve in
steps. Whatever the index has that neither gave up yet is less than one step.
-/

namespace FluxKV.Memory

open Counting

/-- The options the thread reads. -/
structure IndexConfig where
  cacheSize : ℕ
  writeQueueMem : ℕ
  shards : ℕ
deriving DecidableEq, Repr

namespace IndexConfig

variable (cfg : IndexConfig)

def budget : ℤ := int64 cfg.cacheSize

/-- The document cache keeps an eighth, and at least the write queue's size. -/
def docFloor : ℤ := min cfg.budget (max (cfg.budget.tdiv 8) (int64 cfg.writeQueueMem))

def step : ℤ := 64 * 1024 * 1024

end IndexConfig

/-- The thread's own ledgers, and the reserve the stores were last given. -/
structure IndexCharge where
  docBudget : ℤ
  charged : ℤ
  reserve : ℕ
deriving DecidableEq, Repr

namespace IndexCharge

variable (cfg : IndexConfig)

def initial : IndexCharge := ⟨cfg.budget, 0, 0⟩

/-- What the document cache gives up for an index of this size. -/
def fromCache (idx : ℕ) : ℤ := min (idx : ℤ) (cfg.budget - cfg.docFloor)

/-- `SetBudget`, for a whole step or at the floor. -/
def takeDoc (s : IndexCharge) (idx : ℕ) : IndexCharge :=
  let doc := cfg.budget - fromCache cfg idx
  if IndexConfig.step ≤ s.docBudget - doc ∨ doc = cfg.docFloor ∧ s.docBudget ≠ doc then { s with docBudget := doc }
  else s

/-- `SetBlockCacheReserve`, for a whole step. -/
def takeBlocks (s : IndexCharge) (idx : ℕ) : IndexCharge :=
  let rest := idx - fromCache cfg idx
  if IndexConfig.step ≤ rest - s.charged then
    { s with
      charged := rest
      reserve := rest.toNat / cfg.shards }
  else s

/-- One round of the thread, at which the index has this size. -/
def tick (s : IndexCharge) (idx : ℕ) : IndexCharge := (s.takeDoc cfg idx).takeBlocks cfg idx

/-- Where the ledgers stand once an index of this size was seen. -/
structure Settled (s : IndexCharge) (idx : ℕ) : Prop where
  floor_le : cfg.docFloor ≤ s.docBudget
  le_size : s.docBudget ≤ cfg.budget
  reserved : s.reserve = s.charged.toNat / cfg.shards
  untaken : 0 ≤ idx - (cfg.budget - s.docBudget) - s.charged
  within : idx - (cfg.budget - s.docBudget) - s.charged < IndexConfig.step
  first : 0 < s.charged → s.docBudget = cfg.docFloor
  nonneg : 0 ≤ s.charged

variable {cfg} {s : IndexCharge} {seen idx : ℕ}

theorem docFloor_le (cfg : IndexConfig) : cfg.docFloor ≤ cfg.budget := min_le_left ..

theorem Settled.initial : Settled cfg (.initial cfg) 0 := by
  refine ⟨docFloor_le cfg, le_rfl, ?_, ?_, ?_, ?_, le_rfl⟩
  · exact (Nat.zero_div _).symm
  · simp [IndexCharge.initial]
  · simp [IndexCharge.initial, IndexConfig.step]
  · exact fun positive => absurd positive (lt_irrefl _)

/-- What a round does, below the floor's share and beyond it. -/
theorem Settled.tick (settled : Settled cfg s seen) (grown : seen ≤ idx) :
    Settled cfg (s.tick cfg idx) idx ∧ (s.tick cfg idx).docBudget ≤ s.docBudget ∧
      s.charged ≤ (s.tick cfg idx).charged := by
  obtain ⟨floor_le, le_size, reserved, untaken, within, first, nonneg⟩ := settled
  have floor := docFloor_le cfg
  have positive : 0 < IndexConfig.step := by decide
  rcases lt_or_ge (idx : ℤ) (cfg.budget - cfg.docFloor) with below | beyond
  · -- The cache can still give all of it, so nothing was reserved before and nothing is now.
    have share : fromCache cfg idx = idx := min_eq_left below.le
    have none : s.charged = 0 := by
      rcases nonneg.lt_or_eq with some | zero
      · have bottom := first some
        omega
      · exact zero.symm
    have kept : ∀ t : IndexCharge, t.charged = 0 → t.takeBlocks cfg idx = t := by
      intro t zero
      rw [takeBlocks, share, zero]
      exact if_neg (by omega)
    rw [IndexCharge.tick]
    rcases Decidable.em (IndexConfig.step ≤ s.docBudget - (cfg.budget - idx) ∨
      cfg.budget - idx = cfg.docFloor ∧ s.docBudget ≠ cfg.budget - idx) with taken | close
    · have shape : s.takeDoc cfg idx = { s with docBudget := cfg.budget - idx } := by
        rw [takeDoc, share]
        exact if_pos taken
      rw [shape, kept { s with docBudget := cfg.budget - idx } none]
      refine ⟨⟨?_, ?_, reserved, ?_, ?_, ?_, nonneg⟩, ?_, le_rfl⟩ <;> dsimp only <;> omega
    · have shape : s.takeDoc cfg idx = s := by
        rw [takeDoc, share]
        exact if_neg close
      rw [shape, kept _ none]
      refine ⟨⟨floor_le, le_size, reserved, ?_, ?_, first, nonneg⟩, le_rfl, le_rfl⟩ <;> omega
  · -- The cache is at its floor, and the stores give the rest.
    have share : fromCache cfg idx = cfg.budget - cfg.docFloor := min_eq_right beyond
    have bottom : s.takeDoc cfg idx = { s with docBudget := cfg.docFloor } := by
      rw [takeDoc, share, sub_sub_cancel]
      rcases eq_or_ne s.docBudget cfg.docFloor with there | above
      · rw [if_neg (by omega), ← there]
      · exact if_pos (.inr ⟨rfl, above⟩)
    rw [IndexCharge.tick, bottom]
    rcases le_or_gt IndexConfig.step (idx - (cfg.budget - cfg.docFloor) - s.charged) with taken | close
    · have shape : takeBlocks cfg { s with docBudget := cfg.docFloor } idx =
          ⟨cfg.docFloor, idx - (cfg.budget - cfg.docFloor),
            (idx - (cfg.budget - cfg.docFloor)).toNat / cfg.shards⟩ := by
        rw [takeBlocks, share]
        exact if_pos taken
      rw [shape]
      refine ⟨⟨le_rfl, floor, rfl, ?_, ?_, fun _ => rfl, ?_⟩, floor_le, ?_⟩ <;> dsimp only <;> omega
    · have shape : takeBlocks cfg { s with docBudget := cfg.docFloor } idx = { s with docBudget := cfg.docFloor } := by
        rw [takeBlocks, share]
        exact if_neg (not_le.mpr close)
      rw [shape]
      refine ⟨⟨le_rfl, floor, reserved, ?_, close, fun _ => rfl, nonneg⟩, floor_le, le_rfl⟩
      dsimp only
      rcases nonneg.lt_or_eq with some | zero
      · have there := first some
        omega
      · omega

theorem Settled.foldl {sizes : List ℕ} (settled : Settled cfg s seen) (ascending : (seen :: sizes).Pairwise (· ≤ ·)) :
    Settled cfg (sizes.foldl (IndexCharge.tick cfg) s) (sizes.getLastD seen) := by
  induction sizes generalizing s seen with
  | nil => exact settled
  | cons next sizes ih =>
    obtain ⟨above, rest⟩ := List.pairwise_cons.mp ascending
    rw [List.foldl_cons, List.getLastD_cons]
    exact ih (settled.tick (above next List.mem_cons_self)).1 rest

/-- For any growing index the budget of the document cache falls to its floor at most, the reserve only grows, the
bytes that neither gave up are less than one step, and the document cache comes first. -/
theorem index_memory_is_charged (cfg : IndexConfig) {sizes : List ℕ} {idx : ℕ}
    (ascending : (sizes ++ [idx]).Pairwise (· ≤ ·)) :
    let s := sizes.foldl (IndexCharge.tick cfg) (.initial cfg)
    let t := s.tick cfg idx
    cfg.docFloor ≤ t.docBudget ∧ t.docBudget ≤ s.docBudget ∧ s.docBudget ≤ cfg.budget ∧
      s.charged ≤ t.charged ∧ s.reserve ≤ t.reserve ∧
      0 ≤ idx - (cfg.budget - t.docBudget) - t.charged ∧
      idx - (cfg.budget - t.docBudget) - t.charged < 64 * 1024 * 1024 ∧
      (t.docBudget ≠ cfg.docFloor → t.charged = 0 ∧ t.reserve = 0) := by
  intro s t
  obtain ⟨sorted, _, below⟩ := List.pairwise_append.mp ascending
  have before : Settled cfg s (sizes.getLastD 0) :=
    Settled.initial.foldl (List.pairwise_cons.mpr ⟨fun _ _ => Nat.zero_le _, sorted⟩)
  have grown : sizes.getLastD 0 ≤ idx := by
    rcases List.eq_nil_or_concat sizes with rfl | ⟨earlier, last, rfl⟩
    · exact Nat.zero_le idx
    · rw [List.concat_eq_append] at below ⊢
      rw [List.getLastD_concat]
      exact below last (List.mem_append_right _ List.mem_cons_self) idx List.mem_cons_self
  obtain ⟨after, falls, rises⟩ := before.tick grown
  refine ⟨after.floor_le, falls, before.le_size, rises, ?_, after.untaken, after.within, ?_⟩
  · rw [before.reserved, after.reserved]
    exact Nat.div_le_div_right (Int.toNat_le_toNat rises)
  · intro above
    have none : t.charged = 0 := by
      rcases after.nonneg.lt_or_eq with some | zero
      · exact absurd (after.first some) above
      · exact zero.symm
    refine ⟨none, ?_⟩
    rw [after.reserved, none]
    exact Nat.zero_div _

/-- A cache of 1 GiB beside a small write queue, and an index that grows past what the cache gives. -/
theorem index_memory_is_charged_past_floor :
    let cfg : IndexConfig := ⟨2 ^ 30, 2 ^ 20, 4⟩
    let s := [2 ^ 26, 2 ^ 29].foldl (IndexCharge.tick cfg) (.initial cfg)
    (s.tick cfg (2 ^ 30)).docBudget = cfg.docFloor ∧ (s.tick cfg (2 ^ 30)).reserve = 2 ^ 25 ∧
      s.reserve ≤ (s.tick cfg (2 ^ 30)).reserve := by
  intro cfg s
  have ascending : ([2 ^ 26, 2 ^ 29] ++ [2 ^ 30] : List ℕ).Pairwise (· ≤ ·) := by decide
  exact ⟨by decide, by decide, (index_memory_is_charged cfg ascending).2.2.2.2.1⟩

end IndexCharge

end FluxKV.Memory
