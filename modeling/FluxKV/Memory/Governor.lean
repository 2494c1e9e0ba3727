import FluxKV.ToMathlib.Counting

/-! # The memory governor

Each store has a quota of `base + extra`. Ten times a second the governor looks at the resident size and the writes
since the last tick, and raises or lowers `extra`, at most to the boost and at least to half of the base. Options are
converted to signed integers as they are read; the arithmetic on them is exact, since a signed overflow has no
meaning. The write rate is a floating-point number of which a tick uses two things: whether it is above the limit for
data blocks, and the share of the boost it leaves. Both are part of the tick.
-/

namespace FluxKV.Memory

open Counting

/-- The options the governor reads. -/
structure Config where
  shards : ℕ
  memQuota : ℕ
  writeCache : ℕ := 0
  readBoostMB : ℕ := 0
  readBoostIdleMs : ℤ := 3000
  readBoostMaxRssMB : ℕ := 0
  readBoostWriteRate : ℕ := 0
  memHardRssMB : ℕ := 0
  dataCacheMaxWriteRate : ℕ := 0
deriving DecidableEq, Repr

def mb : ℤ := 1024 * 1024

def second : ℤ := 1000000000

namespace Config

variable (cfg : Config)

def base : ℤ := int64 (cfg.memQuota / cfg.shards)

def maxExtra : ℤ := (int64 cfg.readBoostMB * mb).tdiv cfg.shards

def minExtra : ℤ := (-cfg.base).tdiv 2

def step : ℤ := max (cfg.maxExtra.tdiv 16) mb

def rssLimit : ℤ := int64 cfg.readBoostMaxRssMB * mb

def rssLow : ℤ := if 128 * mb < cfg.rssLimit then cfg.rssLimit - 128 * mb else 0

def rssHard : ℤ := if 0 < cfg.memHardRssMB then int64 cfg.memHardRssMB * mb else cfg.rssLimit + 550 * mb

def idle : ℤ := cfg.readBoostIdleMs * 1000000

/-- What writes that resume find free below the base. -/
def freed : ℤ := if 0 < cfg.writeCache then int64 cfg.writeCache else cfg.base.tdiv 2

end Config

/-- What one tick reads: the sum of the seqnos, the clock in nanoseconds, the resident size, whether the write rate
is above that for data blocks, and the boost scaled by the write rate. -/
structure Tick where
  n : ℕ
  now : ℤ
  rss : ℤ
  fast : Bool
  scaled : ℤ
deriving DecidableEq, Repr

/-- The thread's variables, and the quotas the stores were given, the latest first. -/
structure Governor where
  extra : ℤ := 0
  last : ℕ := 0
  lastWrite : ℤ
  lastGrow : ℤ
  purged : Bool := false
  dataCachePaused : Bool := false
  quotas : List ℕ := []
deriving DecidableEq, Repr

namespace Governor

variable (cfg : Config)

def initial (now : ℤ) : Governor := { lastWrite := now, lastGrow := now }

/-- `SetMemoryQuota` of every store. -/
def apply (g : Governor) (e : ℤ) : Governor :=
  { g with
    extra := e
    quotas := sizeT (cfg.base + e) :: g.quotas }

/-- Data blocks are cached or not, by the write rate. -/
def pause (g : Governor) (t : Tick) : Governor :=
  let pauseData := 0 < cfg.dataCacheMaxWriteRate && t.fast
  if pauseData = g.dataCachePaused then g
  else if pauseData then
    { g.apply cfg cfg.minExtra with
      dataCachePaused := true
      lastGrow := t.now }
  else { g with dataCachePaused := false }

/-- The chain of cases at the end of a tick, of which at most one applies. -/
def adjust (g : Governor) (t : Tick) (wrote resumed : Bool) (cap : ℤ) : Governor :=
  if 0 < cfg.rssLimit ∧ cfg.rssHard < t.rss ∧ cfg.minExtra < g.extra then
    let excess := (t.rss - cfg.rssHard).tdiv cfg.shards
    g.apply cfg (max cfg.minExtra (g.extra - max cfg.step (2 * excess)))
  else if 0 < cfg.rssLimit ∧ cfg.rssLimit < t.rss ∧ 0 < g.extra then
    let excess := (t.rss - cfg.rssLimit).tdiv cfg.shards
    g.apply cfg (max 0 (g.extra - max cfg.step (2 * excess)))
  else if g.extra < 0 ∧ t.rss < cfg.rssHard - 256 * mb ∧ second ≤ t.now - g.lastGrow then
    { g with lastGrow := t.now }.apply cfg (min 0 (g.extra + cfg.step))
  else if resumed = true ∧ 0 < g.extra ∧ cap < g.extra then
    g.apply cfg (max cfg.minExtra (min 0 cap - cfg.freed))
  else if cap < g.extra ∧ (cap = 0 ∨ cfg.step.tdiv 2 ≤ g.extra - cap) then g.apply cfg cap
  else if wrote = false ∧ t.now - g.lastWrite < cfg.idle then g
  else if wrote = false ∧ g.purged = false then { g with purged := true }
  else if (cfg.rssLimit = 0 ∨ t.rss < cfg.rssLow) ∧ cfg.step.tdiv 2 ≤ cap - g.extra ∧
      second ≤ t.now - g.lastGrow then
    { g with lastGrow := t.now }.apply cfg (min cap (g.extra + cfg.step))
  else g

/-- One tick. -/
def tick (g : Governor) (t : Tick) : Governor :=
  let wrote := g.last ≠ 0 ∧ t.n ≠ g.last
  let g := { g with last := t.n }.pause cfg t
  let resumed := wrote ∧ cfg.idle ≤ t.now - g.lastWrite
  let cap := if wrote then if cfg.readBoostWriteRate = 0 then 0 else t.scaled else cfg.maxExtra
  let g := if wrote then { g with lastWrite := t.now, purged := false } else g
  g.adjust cfg t wrote resumed cap

end Governor

/-- There is a store, and the conversions to `int64_t` and the sums of sizes are exact. -/
structure Config.Fits (cfg : Config) : Prop where
  shards_pos : 1 ≤ cfg.shards
  boost : cfg.readBoostMB * 2 ^ 20 < 2 ^ 63
  writeCache : cfg.writeCache < 2 ^ 63
  quota : cfg.memQuota / cfg.shards + cfg.readBoostMB * 2 ^ 20 / cfg.shards < 2 ^ 63

namespace Config.Fits

variable {cfg : Config}

theorem base_eq (fits : cfg.Fits) : cfg.base = (cfg.memQuota / cfg.shards : ℕ) :=
  int64_of_lt ((Nat.le_add_right ..).trans_lt fits.quota)

theorem maxExtra_eq (fits : cfg.Fits) : cfg.maxExtra = (cfg.readBoostMB * 2 ^ 20 / cfg.shards : ℕ) := by
  have small : cfg.readBoostMB < 2 ^ 63 := by
    have := fits.boost
    omega
  rw [maxExtra, int64_of_lt small, show mb = (2 ^ 20 : ℕ) by decide, ← Int.natCast_mul, ← Int.ofNat_tdiv]

theorem minExtra_eq (fits : cfg.Fits) : cfg.minExtra = -(cfg.base / 2) := by
  rw [minExtra, Int.neg_tdiv, Int.tdiv_eq_ediv_of_nonneg (by rw [fits.base_eq]; exact Int.natCast_nonneg _)]

theorem freed_nonneg (fits : cfg.Fits) : 0 ≤ cfg.freed := by
  rw [freed]
  split
  · rw [int64_of_lt fits.writeCache]
    exact Int.natCast_nonneg _
  · rw [fits.base_eq]
    exact Int.tdiv_nonneg (Int.natCast_nonneg _) (by decide)

/-- Where the governor's numbers lie. -/
theorem bounds (fits : cfg.Fits) : 0 ≤ cfg.base ∧ 0 ≤ cfg.maxExtra ∧ cfg.base + cfg.maxExtra < 2 ^ 63 := by
  rw [fits.base_eq, fits.maxExtra_eq]
  exact ⟨Int.natCast_nonneg _, Int.natCast_nonneg _, Int.ofNat_lt.mpr fits.quota⟩

end Config.Fits

theorem Config.step_pos (cfg : Config) : 0 < cfg.step := lt_of_lt_of_le (by decide : 0 < mb) (le_max_right ..)

namespace Governor

variable {cfg : Config} {g : Governor} {t : Tick}

/-- `extra` and every quota that was given are in range. -/
structure InRange (cfg : Config) (g : Governor) : Prop where
  low : -(cfg.base / 2) ≤ g.extra
  high : g.extra ≤ cfg.maxExtra
  quotas : ∀ q ∈ g.quotas, cfg.base - cfg.base / 2 ≤ (q : ℤ) ∧ (q : ℤ) ≤ cfg.base + cfg.maxExtra

theorem InRange.initial (fits : cfg.Fits) (now : ℤ) : InRange cfg (.initial now) := by
  obtain ⟨base, maxExtra, _⟩ := fits.bounds
  refine ⟨?_, maxExtra, by rintro _ ⟨⟩⟩
  show -(cfg.base / 2) ≤ 0
  omega

/-- The quota is given as it is. -/
theorem sizeT_quota (fits : cfg.Fits) {e : ℤ} (low : -(cfg.base / 2) ≤ e) (high : e ≤ cfg.maxExtra) :
    (sizeT (cfg.base + e) : ℤ) = cfg.base + e := by
  obtain ⟨base, maxExtra, total⟩ := fits.bounds
  exact sizeT_of_nonneg (by omega) (by omega)

theorem InRange.apply (inRange : InRange cfg g) (fits : cfg.Fits) {e : ℤ} (low : -(cfg.base / 2) ≤ e)
    (high : e ≤ cfg.maxExtra) : InRange cfg (g.apply cfg e) := by
  refine ⟨low, high, List.forall_mem_cons.mpr ⟨?_, inRange.quotas⟩⟩
  rw [sizeT_quota fits low high]
  omega

theorem InRange.pause (inRange : InRange cfg g) (fits : cfg.Fits) : InRange cfg (g.pause cfg t) := by
  obtain ⟨base, maxExtra, _⟩ := fits.bounds
  have floor := fits.minExtra_eq
  rw [Governor.pause]
  dsimp only
  split
  · exact inRange
  · split
    · obtain ⟨low, high, quotas⟩ := inRange.apply fits (e := cfg.minExtra) (by omega) (by omega)
      exact ⟨low, high, quotas⟩
    · exact ⟨inRange.low, inRange.high, inRange.quotas⟩

/-- The chain of cases leaves `extra`, lowers it, or raises it up to the cap where there is memory to spare. -/
theorem adjust_cases (fits : cfg.Fits) (low : cfg.minExtra ≤ g.extra) (t : Tick) (wrote resumed : Bool) {cap : ℤ}
    (nonneg : 0 ≤ cap) :
    let after := g.adjust cfg t wrote resumed cap
    after.extra = g.extra ∧ after.quotas = g.quotas ∨
      after.quotas = sizeT (cfg.base + after.extra) :: g.quotas ∧ cfg.minExtra ≤ after.extra ∧
        (after.extra ≤ g.extra ∨ after.extra ≤ cap ∧
          (t.rss < cfg.rssHard - 256 * mb ∨ cfg.rssLimit = 0 ∨ t.rss < cfg.rssLow)) := by
  have base := fits.bounds.1
  have floor := fits.minExtra_eq
  have freed := fits.freed_nonneg
  have step := cfg.step_pos
  dsimp only
  rw [Governor.adjust]
  dsimp only
  split_ifs with hard high back resumes passed idle purge spare
  · exact .inr ⟨rfl, le_max_left .., .inl (max_le hard.2.2.le (by omega))⟩
  · exact .inr ⟨rfl, show cfg.minExtra ≤ max 0 _ by omega, .inl (max_le high.2.2.le (by omega))⟩
  · exact .inr ⟨rfl, show cfg.minExtra ≤ min 0 _ by omega, .inr ⟨(min_le_left ..).trans nonneg, .inl back.2.1⟩⟩
  · exact .inr ⟨rfl, le_max_left .., .inl (max_le low (by omega))⟩
  · exact .inr ⟨rfl, show cfg.minExtra ≤ cap by omega, .inl passed.1.le⟩
  · exact .inl ⟨rfl, rfl⟩
  · exact .inl ⟨rfl, rfl⟩
  · exact .inr ⟨rfl, show cfg.minExtra ≤ min cap _ by omega, .inr ⟨min_le_left .., .inr spare.1⟩⟩
  · exact .inl ⟨rfl, rfl⟩

theorem InRange.adjust (inRange : InRange cfg g) (fits : cfg.Fits) {wrote resumed : Bool} {cap : ℤ} (nonneg : 0 ≤ cap)
    (capped : cap ≤ cfg.maxExtra) : InRange cfg (g.adjust cfg t wrote resumed cap) := by
  have floor := fits.minExtra_eq
  have low := inRange.low
  have high := inRange.high
  rcases adjust_cases (g := g) fits (by omega) t wrote resumed nonneg with ⟨same, quotas⟩ | ⟨quotas, above, moved⟩
  · exact ⟨same ▸ low, same ▸ high, quotas ▸ inRange.quotas⟩
  · obtain ⟨low, high, applied⟩ := inRange.apply fits (e := (g.adjust cfg t wrote resumed cap).extra) (by omega)
      (by omega)
    exact ⟨low, high, quotas ▸ applied⟩

/-- The cap is some part of the boost, whatever the write rate. -/
def Tick.Scaled (cfg : Config) (t : Tick) : Prop := 0 ≤ t.scaled ∧ t.scaled ≤ cfg.maxExtra

instance (cfg : Config) (t : Tick) : Decidable (Tick.Scaled cfg t) := inferInstanceAs (Decidable (_ ∧ _))

theorem InRange.tick (inRange : InRange cfg g) (fits : cfg.Fits) (scaled : Tick.Scaled cfg t) :
    InRange cfg (g.tick cfg t) := by
  obtain ⟨_, maxExtra, _⟩ := fits.bounds
  have paused : InRange cfg ({ g with last := t.n }.pause cfg t) :=
    InRange.pause ⟨inRange.low, inRange.high, inRange.quotas⟩ fits
  rw [Governor.tick]
  refine InRange.adjust ?_ fits ?_ ?_
  · split
    · exact ⟨paused.low, paused.high, paused.quotas⟩
    · exact paused
  · have := scaled.1
    split_ifs <;> omega
  · have := scaled.2
    split_ifs <;> omega

/-- Above the hard limit nothing raises `extra`. -/
theorem adjust_le (inRange : InRange cfg g) (fits : cfg.Fits) {wrote resumed : Bool} {cap : ℤ} (nonneg : 0 ≤ cap)
    (limited : 0 < cfg.rssLimit) (above : cfg.rssLimit ≤ cfg.rssHard) (hard : cfg.rssHard < t.rss) :
    (g.adjust cfg t wrote resumed cap).extra ≤ g.extra := by
  have floor := fits.minExtra_eq
  have low := inRange.low
  have one := (by decide : 0 < mb)
  have lower : cfg.rssLow ≤ cfg.rssLimit := by
    rw [Config.rssLow]
    split <;> omega
  rcases adjust_cases (g := g) fits (by omega) t wrote resumed nonneg with ⟨same, _⟩ | ⟨_, _, lowered | ⟨_, spare⟩⟩
  · exact same.le
  · exact lowered
  · omega

theorem pause_le (inRange : InRange cfg g) (fits : cfg.Fits) : (g.pause cfg t).extra ≤ g.extra := by
  have floor := fits.minExtra_eq
  have low := inRange.low
  rw [Governor.pause]
  dsimp only
  split
  · exact le_rfl
  · split
    · show cfg.minExtra ≤ g.extra
      omega
    · exact le_rfl

theorem tick_le (inRange : InRange cfg g) (fits : cfg.Fits) (scaled : Tick.Scaled cfg t) (limited : 0 < cfg.rssLimit)
    (above : cfg.rssLimit ≤ cfg.rssHard) (hard : cfg.rssHard < t.rss) : (g.tick cfg t).extra ≤ g.extra := by
  obtain ⟨_, maxExtra, _⟩ := fits.bounds
  have begun : InRange cfg { g with last := t.n } := ⟨inRange.low, inRange.high, inRange.quotas⟩
  have paused := begun.pause (t := t) fits
  have lower := pause_le (t := t) begun fits
  have nonneg := scaled.1
  rw [Governor.tick]
  refine le_trans (adjust_le ?_ fits ?_ limited above hard) ?_
  · split
    · exact ⟨paused.low, paused.high, paused.quotas⟩
    · exact paused
  · split_ifs <;> omega
  · split
    · exact lower
    · exact lower

theorem InRange.foldl (inRange : InRange cfg g) (fits : cfg.Fits) {ticks : List Tick}
    (scaled : ∀ t ∈ ticks, Tick.Scaled cfg t) : InRange cfg (ticks.foldl (Governor.tick cfg) g) := by
  induction ticks generalizing g with
  | nil => exact inRange
  | cons t ticks ih =>
    obtain ⟨now, later⟩ := List.forall_mem_cons.mp scaled
    exact ih (inRange.tick fits now) later

/-- Whatever the ticks bring, the quota of a store stays between half of its base and the whole boost above it, and
above the hard limit it is not raised. -/
theorem quota_stays_in_range (fits : cfg.Fits) (now : ℤ) {ticks : List Tick}
    (scaled : ∀ t ∈ ticks, Tick.Scaled cfg t) :
    let g := ticks.foldl (Governor.tick cfg) (.initial now)
    g.extra ≤ cfg.maxExtra ∧ -(cfg.base / 2) ≤ g.extra ∧
      (∀ q ∈ g.quotas, cfg.base - cfg.base / 2 ≤ (q : ℤ) ∧ (q : ℤ) ≤ cfg.base + cfg.maxExtra) ∧
      (sizeT (cfg.base + g.extra) : ℤ) = cfg.base + g.extra ∧
      (0 < cfg.rssLimit → cfg.rssLimit ≤ cfg.rssHard → ∀ t, Tick.Scaled cfg t → cfg.rssHard < t.rss →
        (g.tick cfg t).extra ≤ g.extra) := by
  intro g
  have inRange : InRange cfg g := (InRange.initial fits now).foldl fits scaled
  refine ⟨inRange.high, inRange.low, inRange.quotas, sizeT_quota fits inRange.low inRange.high, ?_⟩
  intro limited above t part hard
  exact tick_le inRange fits part limited above hard

/-- A boost of 64 MB over a quota of 1 GB, of which the second tick gives out a step. -/
theorem quota_stays_in_range_boosted :
    let cfg : Config := { shards := 4, memQuota := 2 ^ 30, readBoostMB := 64 }
    let ticks : List Tick := [⟨1, 4 * second, 0, false, 0⟩, ⟨1, 5 * second, 0, false, 0⟩]
    let g := ticks.foldl (Governor.tick cfg) (.initial 0)
    g.extra = mb ∧ g.extra ≤ cfg.maxExtra := by
  intro cfg ticks g
  have fits : cfg.Fits := ⟨by decide, by decide, by decide, by decide⟩
  have scaled : ∀ t ∈ ticks, Tick.Scaled cfg t := by decide
  exact ⟨by decide, (quota_stays_in_range fits 0 scaled).1⟩

/-- With a write cache of nearly all of 64 bits, writes that resume after a boosted read phase take `extra` far above
the boost. -/
theorem huge_write_cache_breaks_range :
    let cfg : Config := { shards := 1, memQuota := 2 ^ 30, readBoostMB := 64, writeCache := 2 ^ 64 - 2 ^ 40 }
    let ticks : List Tick :=
      [⟨1, 4 * second, 0, false, 0⟩, ⟨1, 5 * second, 0, false, 0⟩, ⟨2, 6 * second, 0, false, 0⟩]
    let g := ticks.foldl (Governor.tick cfg) (.initial 0)
    1 ≤ cfg.shards ∧ (∀ t ∈ ticks, Tick.Scaled cfg t) ∧ cfg.maxExtra = 64 * mb ∧ g.extra = 2 ^ 40 ∧
      g.quotas.head? = some (2 ^ 30 + 2 ^ 40) := by
  decide +kernel

end Governor

end FluxKV.Memory
