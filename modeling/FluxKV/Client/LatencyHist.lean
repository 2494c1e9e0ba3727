import FluxKV.Protocol.Header
import FluxKV.ToMathlib.Ranks
import Mathlib.Data.List.GetD
import Mathlib.Data.Multiset.Sort

/-! # The latency histogram

A connection counts its latencies in buckets, 64 to a power of two, and `main` merges the histograms of all
connections before it reports percentiles. What is left of a latency is its bucket, of which a percentile gives the
upper end. Buckets follow the order of the latencies, so that end belongs to the latency of the rank asked for, and it
is off by a sixty-fourth at most.
-/

namespace FluxKV.Client

open Ranks

def kSub : ℕ := 64

def kBuckets : ℕ := 31 * kSub

/-- The counts are 64-bit in the source, which no run fills. -/
structure LatencyHist where
  counts : Vector ℕ kBuckets := Vector.replicate kBuckets 0
  total : ℕ := 0

namespace LatencyHist

/-- The bucket of a latency in microseconds. Counting leading zeros gives the logarithm. -/
def bucket (us : UInt32) : ℕ :=
  let us := if us < 1 then 1 else us
  let lg := us.toNat.log2
  let sub := if 6 ≤ lg then (us >>> UInt32.ofNat (lg - 6)) &&& 63 else (us <<< UInt32.ofNat (6 - lg)) &&& 63
  let b := lg * kSub + sub.toNat
  if b < kBuckets then b else kBuckets - 1

theorem bucket_lt (us : UInt32) : bucket us < kBuckets := by
  have clamped : ∀ b, (if b < kBuckets then b else kBuckets - 1) < kBuckets := by
    intro b
    split
    · assumption
    · decide
  exact clamped _

def upper (b : ℕ) : UInt32 :=
  let lg := UInt32.ofNat (b / kSub)
  let sub := UInt32.ofNat (b % kSub) + 1
  if 6 ≤ lg then (1 <<< lg) + (sub <<< (lg - 6)) else (1 <<< lg) + (sub >>> (6 - lg))

variable (h : LatencyHist)

def add (us : UInt32) : LatencyHist where
  counts := h.counts.set (bucket us) (h.counts.get ⟨bucket us, bucket_lt us⟩ + 1) (bucket_lt us)
  total := h.total + 1

def merge (o : LatencyHist) : LatencyHist where
  counts := h.counts.zipWith (· + ·) o.counts
  total := h.total + o.total

/-- The loop of `max` over the buckets below `i`, from the top. -/
def maxBelow (counts : ℕ → ℕ) : ℕ → UInt32
  | 0 => 0
  | i + 1 => if counts i ≠ 0 then upper i else maxBelow counts i

def max : UInt32 := maxBelow (fun i => h.counts.toList.getD i 0) kBuckets

/-- `percentile` from the rank on that its argument asks for. -/
def percentile (want : ℕ) : UInt32 :=
  if h.total = 0 then 0
  else
    let want := if h.total ≤ want then h.total - 1 else want
    match scan want h.counts.toList 0 0 with
    | some i => upper i
    | none => upper (kBuckets - 1)

/-! ## Buckets -/

/-- The bucket of a latency, as the 64 steps from its power of two to the next. -/
def bucketOf (n : ℕ) : ℕ :=
  let n := if n < 1 then 1 else n
  Nat.min (kSub * n.log2 + (64 * n / 2 ^ n.log2 - 64)) (kBuckets - 1)

private theorem steps_bounds {n : ℕ} (pos : n ≠ 0) : 64 ≤ 64 * n / 2 ^ n.log2 ∧ 64 * n / 2 ^ n.log2 < 128 := by
  have low := Nat.log2_self_le pos
  have high : n < 2 ^ (n.log2 + 1) := Nat.lt_log2_self
  rw [Nat.pow_succ] at high
  constructor
  · exact (Nat.le_div_iff_mul_le (Nat.two_pow_pos _)).mpr (by omega)
  · exact (Nat.div_lt_iff_lt_mul (Nat.two_pow_pos _)).mpr (by omega)

private theorem sub_toNat {us : UInt32} (pos : us.toNat ≠ 0) :
    (if 6 ≤ us.toNat.log2 then (us >>> UInt32.ofNat (us.toNat.log2 - 6)) &&& 63
      else (us <<< UInt32.ofNat (6 - us.toNat.log2)) &&& 63).toNat =
      64 * us.toNat / 2 ^ us.toNat.log2 - 64 := by
  obtain ⟨low, high⟩ := steps_bounds pos
  have masked : ∀ x : UInt32, (x &&& 63).toNat = x.toNat % 64 := fun x => by
    rw [UInt32.toNat_and]
    exact Nat.and_two_pow_sub_one_eq_mod _ 6
  have lg : us.toNat.log2 < 32 := (Nat.log2_lt pos).mpr us.toNat_lt
  have amount : ∀ k < 32, (UInt32.ofNat k).toNat % 32 = k := fun k small => by
    rw [UInt32.toNat_ofNat_of_lt' (small.trans (by decide)), Nat.mod_eq_of_lt small]
  split
  · next large =>
    have exact : 64 * us.toNat / 2 ^ us.toNat.log2 = us.toNat / 2 ^ (us.toNat.log2 - 6) := by
      conv_lhs => rw [← Nat.sub_add_cancel large, Nat.pow_add, Nat.mul_comm (2 ^ _)]
      exact Nat.mul_div_mul_left _ _ (by decide)
    rw [masked, UInt32.toNat_shiftRight, amount _ (by omega), Nat.shiftRight_eq_div_pow, ← exact]
    omega
  · next small =>
    have exact : 64 * us.toNat / 2 ^ us.toNat.log2 = us.toNat * 2 ^ (6 - us.toNat.log2) := by
      have split : 64 = 2 ^ us.toNat.log2 * 2 ^ (6 - us.toNat.log2) := by
        rw [← Nat.pow_add, Nat.add_sub_cancel' (by omega)]
      conv_lhs => rw [split, Nat.mul_assoc]
      rw [Nat.mul_div_cancel_left _ (Nat.two_pow_pos _), Nat.mul_comm]
    rw [masked, UInt32.toNat_shiftLeft, amount _ (by omega), Nat.shiftLeft_eq, ← exact]
    omega

theorem bucket_eq_bucketOf (us : UInt32) : bucket us = bucketOf us.toNat := by
  have least : (if us < 1 then 1 else us).toNat = if us.toNat < 1 then 1 else us.toNat := by
    rw [apply_ite UInt32.toNat]
    rfl
  have pos : (if us < 1 then 1 else us).toNat ≠ 0 := by
    rw [least]
    split <;> omega
  have clamped : ∀ b, (if b < kBuckets then b else kBuckets - 1) = Nat.min b (kBuckets - 1) := by
    intro b
    have some : 0 < kBuckets := by decide
    show _ = min b (kBuckets - 1)
    split <;> omega
  simp only [bucket, sub_toNat pos, clamped]
  simp only [least, bucketOf, Nat.mul_comm kSub]

theorem bucketOf_of_pos {n : ℕ} (pos : 1 ≤ n) (small : n < 2 ^ 31) :
    bucketOf n = kSub * n.log2 + (64 * n / 2 ^ n.log2 - 64) := by
  have lg : n.log2 < 31 := (Nat.log2_lt (Nat.ne_of_gt pos)).mpr small
  have steps := (steps_bounds (Nat.ne_of_gt pos)).2
  rw [bucketOf, if_neg (Nat.not_lt.mpr pos)]
  exact Nat.min_eq_left (by unfold kBuckets kSub; omega)

theorem bucketOf_lt (n : ℕ) : bucketOf n < kBuckets :=
  Nat.lt_of_le_of_lt (Nat.min_le_right ..) (by decide)

theorem bucketOf_mono : Monotone bucketOf := by
  have step : ∀ m n : ℕ, 1 ≤ m → m ≤ n →
      kSub * m.log2 + (64 * m / 2 ^ m.log2 - 64) ≤ kSub * n.log2 + (64 * n / 2 ^ n.log2 - 64) := by
    intro m n pos le
    have upper := (steps_bounds (Nat.ne_of_gt pos)).2
    have powers : m.log2 ≤ n.log2 :=
      (Nat.le_log2 (Nat.ne_of_gt (pos.trans le))).mpr ((Nat.log2_self_le (Nat.ne_of_gt pos)).trans le)
    rcases Nat.lt_or_eq_of_le powers with less | same
    · unfold kSub
      omega
    · rw [same]
      exact Nat.add_le_add_left (Nat.sub_le_sub_right (Nat.div_le_div_right (Nat.mul_le_mul_left _ le)) _) _
  intro m n le
  refine Nat.le_min.mpr ⟨(Nat.min_le_left ..).trans (step _ _ ?_ ?_), Nat.min_le_right ..⟩
  · split <;> omega
  · split <;> split <;> omega

/-- The upper end of a bucket, in natural numbers. -/
theorem upper_toNat {lg sub : ℕ} (small : lg < 31) (below : sub < 64) :
    (upper (kSub * lg + sub)).toNat = 2 ^ lg + (sub + 1) * 2 ^ lg / 64 := by
  have place : (kSub * lg + sub) / kSub = lg := by unfold kSub; omega
  have rest : (kSub * lg + sub) % kSub = sub := by unfold kSub; omega
  have power : (UInt32.ofNat lg).toNat = lg := UInt32.toNat_ofNat_of_lt' (small.trans (by decide))
  have next : (UInt32.ofNat sub + 1).toNat = sub + 1 := by
    rw [UInt32.toNat_add, UInt32.toNat_ofNat_of_lt' (below.trans (by decide))]
    exact Nat.mod_eq_of_lt (by show sub + 1 < 2 ^ 32; omega)
  have most : 2 ^ lg ≤ 2 ^ 30 := Nat.pow_le_pow_right (by decide) (by omega)
  have base : ((1 : UInt32) <<< UInt32.ofNat lg).toNat = 2 ^ lg := by
    rw [UInt32.toNat_shiftLeft, power, Nat.mod_eq_of_lt (small.trans (by decide)), Nat.shiftLeft_eq]
    show 1 * 2 ^ lg % 2 ^ 32 = 2 ^ lg
    omega
  have branch : 6 ≤ UInt32.ofNat lg ↔ 6 ≤ lg := by rw [UInt32.le_iff_toNat_le, power]; rfl
  unfold upper
  simp only [place, rest, branch]
  split
  · next large =>
    have double : 2 ^ lg = 2 ^ (lg - 6) * 64 := by
      rw [show 64 = 2 ^ 6 from rfl, ← Nat.pow_add, Nat.sub_add_cancel large]
    have amount : (UInt32.ofNat lg - 6).toNat = lg - 6 := by
      rw [UInt32.toNat_sub_of_le _ _ (branch.mpr large), power]
      rfl
    have bound : (sub + 1) * 2 ^ (lg - 6) ≤ 64 * 2 ^ (lg - 6) := Nat.mul_le_mul_right _ below
    have shifted : ((UInt32.ofNat sub + 1) <<< (UInt32.ofNat lg - 6)).toNat = (sub + 1) * 2 ^ (lg - 6) := by
      rw [UInt32.toNat_shiftLeft, next, amount, Nat.mod_eq_of_lt (show lg - 6 < 32 by omega), Nat.shiftLeft_eq]
      exact Nat.mod_eq_of_lt (by omega)
    rw [UInt32.toNat_add, base, shifted, Nat.mod_eq_of_lt (by omega), double, ← Nat.mul_assoc,
      Nat.mul_div_cancel _ (by decide)]
  · next low =>
    have halves : 64 = 2 ^ (6 - lg) * 2 ^ lg := by rw [← Nat.pow_add, Nat.sub_add_cancel (by omega)]
    have amount : (6 - UInt32.ofNat lg).toNat = 6 - lg := by
      rw [UInt32.toNat_sub_of_le _ _ (by rw [UInt32.le_iff_toNat_le, power]; show lg ≤ 6; omega), power]
      rfl
    have shifted : ((UInt32.ofNat sub + 1) >>> (6 - UInt32.ofNat lg)).toNat = (sub + 1) / 2 ^ (6 - lg) := by
      rw [UInt32.toNat_shiftRight, next, amount, Nat.mod_eq_of_lt (by omega), Nat.shiftRight_eq_div_pow]
    have bound : (sub + 1) / 2 ^ (6 - lg) ≤ sub + 1 := Nat.div_le_self ..
    have same : (sub + 1) * 2 ^ lg / 64 = (sub + 1) / 2 ^ (6 - lg) := by
      conv_lhs => rw [halves]
      exact Nat.mul_div_mul_right _ _ (Nat.two_pow_pos lg)
    rw [UInt32.toNat_add, base, shifted, Nat.mod_eq_of_lt (by omega), same]

/-- The upper end of a latency's bucket bounds it, and not by more than a sixty-fourth. -/
structure Tight (n : ℕ) (bound : UInt32) : Prop where
  le : n ≤ bound.toNat
  close : bound.toNat ≤ n + n / 64 + 1
  eq : n < 64 → bound.toNat = n

theorem tight_upper {n : ℕ} (pos : 1 ≤ n) (small : n < 2 ^ 31) : Tight n (upper (bucketOf n)) := by
  have nonzero : n ≠ 0 := Nat.ne_of_gt pos
  have lg : n.log2 < 31 := (Nat.log2_lt nonzero).mpr small
  obtain ⟨low, high⟩ := steps_bounds nonzero
  have value := upper_toNat lg (show 64 * n / 2 ^ n.log2 - 64 < 64 by omega)
  rw [← bucketOf_of_pos pos small, show 64 * n / 2 ^ n.log2 - 64 + 1 = 64 * n / 2 ^ n.log2 - 63 by omega] at value
  have power := Nat.log2_self_le nonzero
  rcases Nat.lt_or_ge n.log2 6 with fine | coarse
  · -- a bucket below 64 holds one latency
    obtain ⟨w, split⟩ : ∃ w, 64 = 2 ^ n.log2 * w :=
      ⟨2 ^ (6 - n.log2), by rw [← Nat.pow_add, Nat.add_sub_cancel' fine.le]⟩
    have below : 2 ^ n.log2 < 64 := Nat.pow_lt_pow_right (m := n.log2) (n := 6) (by decide) fine
    have steps : 64 * n / 2 ^ n.log2 = w * n := by
      conv_lhs => rw [split, Nat.mul_assoc]
      exact Nat.mul_div_cancel_left _ (Nat.two_pow_pos _)
    have area : (w * n - 63) * 2 ^ n.log2 = 64 * (n - 2 ^ n.log2) + 2 ^ n.log2 := by
      have product : w * n * 2 ^ n.log2 = 64 * n := by
        conv_rhs => rw [split]
        ring
      rw [Nat.sub_mul, product]
      omega
    rw [steps, area, Nat.mul_add_div (by decide), Nat.div_eq_of_lt below] at value
    have same : (upper (bucketOf n)).toNat = n := by omega
    exact ⟨same.ge, by omega, fun _ => same⟩
  · have double : 2 ^ n.log2 = 64 * 2 ^ (n.log2 - 6) := by
      rw [show 64 = 2 ^ 6 from rfl, ← Nat.pow_add, Nat.add_sub_cancel' coarse]
    have large : 64 ≤ n := le_trans (Nat.pow_le_pow_right (n := 2) (by decide) coarse) power
    have steps : 64 * n / 2 ^ n.log2 = n / 2 ^ (n.log2 - 6) := by
      rw [double]
      exact Nat.mul_div_mul_left _ _ (by decide)
    generalize 2 ^ (n.log2 - 6) = k at double steps
    have least : k ≤ n / 64 := (Nat.le_div_iff_mul_le (by decide)).mpr (by omega)
    have kpos : 0 < k := Nat.pos_of_ne_zero fun zero => by simp [zero] at double
    have before := Nat.div_mul_le_self n k
    have after := Nat.lt_div_mul_add (a := n) kpos
    rw [steps] at low value
    have area : 64 * k + (n / k - 63) * (64 * k) / 64 = n / k * k + k := by
      rw [show (n / k - 63) * (64 * k) = (n / k - 63) * k * 64 by ring, Nat.mul_div_cancel _ (by decide), Nat.sub_mul]
      have : 64 * k ≤ n / k * k := Nat.mul_le_mul_right k low
      omega
    rw [double, area] at value
    exact ⟨by omega, by omega, fun less => by omega⟩

/-! ## What a histogram holds -/

/-- A histogram holds these latencies: it was fresh, one was added, or another histogram was merged into it. -/
inductive Recorded : LatencyHist → Multiset UInt32 → Prop
  | fresh : Recorded {} 0
  | add {h : LatencyHist} {samples : Multiset UInt32} (us : UInt32) :
      Recorded h samples → Recorded (h.add us) (us ::ₘ samples)
  | merge {h o : LatencyHist} {samples others : Multiset UInt32} :
      Recorded h samples → Recorded o others → Recorded (h.merge o) (samples + others)

/-- `main` merges the histograms of all connections into one. -/
def summary (results : List LatencyHist) : LatencyHist := results.foldl merge {}

theorem recorded_summary {results : List LatencyHist} {samples : List (Multiset UInt32)}
    (each : List.Forall₂ Recorded results samples) : Recorded (summary results) samples.sum := by
  have folded : ∀ {h : LatencyHist} {held : Multiset UInt32}, Recorded h held →
      Recorded (results.foldl merge h) (held + samples.sum) := by
    induction each with
    | nil => intro h held recorded; simpa using recorded
    | cons first _ ih =>
      intro h held recorded
      rw [List.foldl_cons, List.sum_cons, ← Multiset.add_assoc]
      exact ih (recorded.merge first)
  simpa [summary] using folded .fresh

/-- The counts are those of the samples by bucket. -/
structure Holds (h : LatencyHist) (samples : Multiset ℕ) : Prop where
  total : h.total = samples.card
  counts : ∀ i : Fin kBuckets, h.counts.get i = samples.countP fun n => bucketOf n = i

theorem Recorded.holds {samples : Multiset UInt32} (recorded : Recorded h samples) :
    h.Holds (samples.map UInt32.toNat) := by
  induction recorded with
  | fresh => exact ⟨rfl, fun i => by simp [Vector.get]⟩
  | @add h samples us _ ih =>
    refine ⟨?_, fun i => ?_⟩
    · rw [Multiset.map_cons, Multiset.card_cons, ← ih.total]
      rfl
    · rw [Multiset.map_cons, Multiset.countP_cons, ← ih.counts, ← bucket_eq_bucketOf]
      refine (Vector.getElem_set (bucket_lt us) i.isLt).trans ?_
      rcases eq_or_ne (bucket us) i with here | other
      · rw [if_pos here, if_pos here]
        congr 2
        exact Fin.ext here
      · rw [if_neg other, if_neg other]
        rfl
  | merge _ _ first second =>
    refine ⟨?_, fun i => ?_⟩
    · rw [Multiset.map_add, Multiset.card_add, ← first.total, ← second.total]
      rfl
    · rw [Multiset.map_add, Multiset.countP_add, ← first.counts, ← second.counts]
      exact Vector.getElem_zipWith ..

variable {h}

theorem Holds.toList {samples : Multiset ℕ} (holds : h.Holds samples) :
    h.counts.toList = Ranks.counts bucketOf kBuckets (samples.sort (· ≤ ·)) := by
  refine List.ext_getElem (by simp [Ranks.counts]) fun i inside _ => ?_
  have here := holds.counts ⟨i, by simpa using inside⟩
  rw [← Multiset.sort_eq samples (· ≤ ·), Multiset.coe_countP] at here
  simpa [Ranks.counts, Vector.get] using here

theorem percentile_of_holds {samples : Multiset ℕ} {r n : ℕ} (holds : h.Holds samples) (below : r < h.total)
    (ranked : (samples.sort (· ≤ ·))[r]? = some n) : h.percentile r = upper (bucketOf n) := by
  obtain ⟨short, rfl⟩ := List.getElem?_eq_some_iff.mp ranked
  have found := scan_counts bucketOf_mono bucketOf_lt (Multiset.pairwise_sort samples (· ≤ ·)) short
  simp only [percentile, if_neg (Nat.ne_of_gt (Nat.zero_lt_of_lt below)), if_neg (Nat.not_le.mpr below), holds.toList,
    found]

/-- The loop finds the highest bucket with a sample. -/
theorem maxBelow_spec {counts : ℕ → ℕ} {i n : ℕ} (below : i < n) (some : counts i ≠ 0) :
    ∃ j, i ≤ j ∧ j < n ∧ counts j ≠ 0 ∧ maxBelow counts n = upper j := by
  induction n with
  | zero => cases below
  | succ n ih =>
    rcases eq_or_ne (counts n) 0 with empty | top
    · have lower : i < n := Nat.lt_of_le_of_ne (Nat.le_of_lt_succ below) fun same => some (same ▸ empty)
      obtain ⟨j, le, less, held, found⟩ := ih lower
      exact ⟨j, le, Nat.lt_succ_of_lt less, held, by rw [maxBelow, if_neg (not_not.mpr empty), found]⟩
    · exact ⟨n, Nat.le_of_lt_succ below, Nat.lt_succ_self n, top, by rw [maxBelow, if_pos top]⟩

theorem le_max_of_holds {samples : Multiset ℕ} (holds : h.Holds samples)
    (range : ∀ n ∈ samples, 1 ≤ n ∧ n < 2 ^ 31) {n : ℕ} (member : n ∈ samples) : n ≤ h.max.toNat := by
  have entry : ∀ i (inside : i < kBuckets), h.counts.toList.getD i 0 = samples.countP fun n => bucketOf n = i := by
    intro i inside
    rw [← holds.counts ⟨i, inside⟩, List.getD_eq_getElem _ _ (by simpa using inside)]
    simp [Vector.get]
  have here : h.counts.toList.getD (bucketOf n) 0 ≠ 0 := by
    rw [entry _ (bucketOf_lt n)]
    exact Nat.ne_of_gt (Multiset.countP_pos.mpr ⟨n, member, rfl⟩)
  obtain ⟨j, le, inside, held, found⟩ :=
    @maxBelow_spec (fun i => h.counts.toList.getD i 0) _ _ (bucketOf_lt n) here
  rw [entry j inside] at held
  obtain ⟨top, present, rfl⟩ := Multiset.countP_pos.mp (Nat.pos_of_ne_zero held)
  have bound : ∀ m ∈ samples, m ≤ (upper (bucketOf m)).toNat := fun m member =>
    (tight_upper (range m member).1 (range m member).2).le
  rw [max, found]
  -- a latency above the highest bucket's would have its own bucket there
  rcases Nat.le_total n top with less | more
  · exact less.trans (bound top present)
  · rw [Nat.le_antisymm (bucketOf_mono more) le]
    exact bound n member

/-- Percentiles are tight upper bounds of the latencies of their rank, however the latencies came together. -/
theorem percentile_tight {samples : Multiset UInt32} (recorded : Recorded h samples)
    (range : ∀ us ∈ samples, 1 ≤ us.toNat ∧ us.toNat < 2 ^ 31) :
    h.total = samples.card ∧
      (∀ r < h.total, ∃ n, ((samples.map UInt32.toNat).sort (· ≤ ·))[r]? = some n ∧
        n ≤ (h.percentile r).toNat ∧ (h.percentile r).toNat ≤ n + n / 64 + 1 ∧
        (n < 64 → (h.percentile r).toNat = n)) ∧
      (∀ us vs : UInt32, us ≤ vs → bucket us ≤ bucket vs) ∧
      ∀ us ∈ samples, us ≤ h.max := by
  have holds := recorded.holds
  have inRange : ∀ n ∈ samples.map UInt32.toNat, 1 ≤ n ∧ n < 2 ^ 31 := by
    intro n member
    obtain ⟨us, present, rfl⟩ := Multiset.mem_map.mp member
    exact range us present
  refine ⟨by rw [holds.total, Multiset.card_map], fun r below => ?_, fun us vs le => ?_, fun us member => ?_⟩
  · have short : r < ((samples.map UInt32.toNat).sort (· ≤ ·)).length := by
      rwa [Multiset.length_sort, ← holds.total]
    have ranked := List.getElem?_eq_getElem short
    have member := (Multiset.mem_sort ..).mp (List.getElem_mem short)
    obtain ⟨pos, small⟩ := inRange _ member
    have tight := tight_upper pos small
    rw [← percentile_of_holds holds below ranked] at tight
    exact ⟨_, ranked, tight.le, tight.close, tight.eq⟩
  · rw [bucket_eq_bucketOf, bucket_eq_bucketOf]
    exact bucketOf_mono (UInt32.le_iff_toNat_le.mp le)
  · exact UInt32.le_iff_toNat_le.mpr (le_max_of_holds holds inRange (Multiset.mem_map_of_mem _ member))

/-- Two connections that each saw one latency of 3 us. -/
theorem percentile_tight_at :
    (((({} : LatencyHist).add 3).merge (({} : LatencyHist).add 3)).percentile 1).toNat = 3 := by
  have range : ∀ us ∈ (3 ::ₘ 0 + 3 ::ₘ 0 : Multiset UInt32), 1 ≤ us.toNat ∧ us.toNat < 2 ^ 31 := by
    intro us member
    obtain rfl : us = 3 := by simpa using member
    decide
  obtain ⟨total, ranks, _⟩ := percentile_tight ((Recorded.fresh.add 3).merge (Recorded.fresh.add 3)) range
  obtain ⟨n, ranked, _, _, same⟩ := ranks 1 (by rw [total]; decide)
  have member := (Multiset.mem_sort ..).mp (List.mem_of_getElem? ranked)
  obtain rfl : n = 3 := by simpa using member
  exact same (by decide)

end LatencyHist

end FluxKV.Client
