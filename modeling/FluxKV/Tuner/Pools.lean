import Mathlib.Algebra.Order.BigOperators.Group.List
import Mathlib.Algebra.Order.Ring.Nat

/-! # Pools whose size can be changed

The tuner sees an IO pool, which is flat, and one group of pools per role, with one pool in each shard. A group turns
a number of threads into a number per shard, at least one, so the group moves in whole shards whatever it is asked
for. The sizes a pool starts with and its bounds come from the command line.
-/

namespace FluxKV.Tuner

namespace ReaderPool

def grow (live n : ℕ) : ℕ := live + n

def shrink (live n : ℕ) : ℕ := live - min n live

end ReaderPool

namespace WriterPool

def grow (live n : ℕ) : ℕ := live + n

/-- The last writer is never retired. -/
def shrink (live n : ℕ) : ℕ := live - min n (if 1 < live then live - 1 else 0)

end WriterPool

namespace IOPool

def grow (loops n : ℕ) : ℕ := loops + n

/-- The last loop is never retired. -/
def shrink (loops n : ℕ) : ℕ := if loops ≤ 1 then loops else loops - min n (loops - 1)

end IOPool

/-- Whose threads a group of per-shard pools holds. -/
inductive Role where
  | readers
  | writers
deriving DecidableEq, Repr

namespace Role

def grow : Role → ℕ → ℕ → ℕ
  | readers => ReaderPool.grow
  | writers => WriterPool.grow

def shrink : Role → ℕ → ℕ → ℕ
  | readers => ReaderPool.shrink
  | writers => WriterPool.shrink

theorem grow_eq (role : Role) (live n : ℕ) : role.grow live n = live + n := by
  cases role <;> rfl

theorem shrink_le (role : Role) (live n : ℕ) : role.shrink live n ≤ live := by
  cases role <;> exact Nat.sub_le ..

/-- A pool never gives more than it is asked for. -/
theorem le_shrink_add (role : Role) (live n : ℕ) : live ≤ role.shrink live n + n := by
  cases role with
  | readers =>
    show live ≤ live - min n live + n
    omega
  | writers =>
    show live ≤ live - min n (if 1 < live then live - 1 else 0) + n
    omega

/-- A pool that keeps a thread gives all it is asked for. -/
theorem shrink_eq (role : Role) {live n : ℕ} (left : n < live) : role.shrink live n = live - n := by
  cases role with
  | readers =>
    show live - min n live = live - n
    omega
  | writers =>
    show live - min n (if 1 < live then live - 1 else 0) = live - n
    split <;> omega

end Role

namespace ShardedPoolGroup

/-- How many threads each of the pools gets or gives up. -/
def per (pools n : ℕ) : ℕ := max 1 (n / pools)

theorem per_pos (pools n : ℕ) : 0 < per pools n := Nat.le_max_left ..

theorem per_mul {pools : ℕ} (some : 0 < pools) {k : ℕ} (more : 0 < k) : per pools (pools * k) = k := by
  rw [per, Nat.mul_div_cancel_left k some]
  exact Nat.max_eq_right more

end ShardedPoolGroup

open ShardedPoolGroup

inductive Pool where
  | io (loops : ℕ)
  | sharded (role : Role) (live : List ℕ)
deriving DecidableEq, Repr

namespace Pool

def size : Pool → ℕ
  | io loops => loops
  | sharded _ live => live.sum

def step : Pool → ℕ
  | io _ => 1
  | sharded _ live => live.length

def grow : Pool → ℕ → Pool
  | io loops, n => io (IOPool.grow loops n)
  | sharded role live, n => sharded role (live.map fun pool => role.grow pool (per live.length n))

def shrink : Pool → ℕ → Pool
  | io loops, n => io (IOPool.shrink loops n)
  | sharded role live, n => sharded role (live.map fun pool => role.shrink pool (per live.length n))

/-- Whose threads these are, where there is a pool for each shard. -/
def role? : Pool → Option Role
  | io _ => none
  | sharded role _ => some role

/-- Every shard has a thread. -/
def Served : Pool → Prop
  | io _ => True
  | sharded _ live => ∀ pool ∈ live, 0 < pool

theorem role?_grow (pool : Pool) (n : ℕ) : (pool.grow n).role? = pool.role? := by
  cases pool <;> rfl

theorem role?_shrink (pool : Pool) (n : ℕ) : (pool.shrink n).role? = pool.role? := by
  cases pool <;> rfl

theorem sum_map_add_const (live : List ℕ) (n : ℕ) : (live.map fun pool => pool + n).sum = live.sum + live.length * n := by
  induction live with
  | nil => simp only [List.map_nil, List.sum_nil, List.length_nil, Nat.zero_mul, Nat.add_zero]
  | cons pool rest ih =>
    simp only [List.map_cons, List.sum_cons, List.length_cons, ih, Nat.succ_mul]
    omega

theorem size_grow_sharded (role : Role) (live : List ℕ) (n : ℕ) :
    ((sharded role live).grow n).size = live.sum + live.length * per live.length n := by
  simp only [grow, size, Role.grow_eq, sum_map_add_const]

theorem size_shrink_le (pool : Pool) (n : ℕ) : (pool.shrink n).size ≤ pool.size := by
  cases pool with
  | io loops =>
    show IOPool.shrink loops n ≤ loops
    unfold IOPool.shrink
    split <;> omega
  | sharded role live =>
    have each := List.sum_le_sum (f := fun pool => role.shrink pool (per live.length n)) (g := id) (l := live)
      fun pool _ => role.shrink_le ..
    rwa [List.map_id] at each

/-- The pool is flat and moves by one, or it has `unit` shards of one size. -/
def Uniform (unit : ℕ) : Pool → Prop
  | io _ => unit = 1
  | sharded _ live => live.length = unit ∧ ∃ k, live = List.replicate unit k

section Uniform

variable {unit n : ℕ} {pool : Pool}

theorem Uniform.step_eq (uniform : pool.Uniform unit) : pool.step = unit := by
  cases pool with
  | io loops => exact Eq.symm uniform
  | sharded role live => exact uniform.1

theorem Uniform.dvd_size (uniform : pool.Uniform unit) : unit ∣ pool.size := by
  cases pool with
  | io loops =>
    obtain rfl : unit = 1 := uniform
    exact one_dvd _
  | sharded role live =>
    obtain ⟨_, k, rfl⟩ := uniform
    exact ⟨k, List.sum_replicate_nat⟩

theorem Uniform.served (uniform : pool.Uniform unit) (some : 0 < pool.size) : pool.Served := by
  cases pool with
  | io loops => trivial
  | sharded role live =>
    obtain ⟨_, k, rfl⟩ := uniform
    intro pool member
    rw [List.eq_of_mem_replicate member]
    rw [size, List.sum_replicate_nat] at some
    exact pos_of_mul_pos_right some (Nat.zero_le unit)

theorem uniform_map (role : Role) (unit k : ℕ) (change : ℕ → ℕ) :
    (sharded role ((List.replicate unit k).map change)).Uniform unit :=
  ⟨by rw [List.length_map, List.length_replicate], change k, List.map_replicate⟩

theorem Uniform.grow (uniform : pool.Uniform unit) : (pool.grow n).Uniform unit := by
  cases pool with
  | io loops => exact uniform
  | sharded role live =>
    obtain ⟨_, k, rfl⟩ := uniform
    exact uniform_map ..

theorem Uniform.shrink (uniform : pool.Uniform unit) : (pool.shrink n).Uniform unit := by
  cases pool with
  | io loops => exact uniform
  | sharded role live =>
    obtain ⟨_, k, rfl⟩ := uniform
    exact uniform_map ..

/-- Whole steps for a group of equal pools are the same number of threads for each. -/
private theorem per_of_dvd (whole : unit ∣ n) (more : 0 < n) : 0 < unit ∧ n = unit * per unit n := by
  obtain ⟨m, rfl⟩ := whole
  have some : 0 < unit := pos_of_mul_pos_left more (Nat.zero_le m)
  exact ⟨some, by rw [per_mul some (pos_of_mul_pos_right more (Nat.zero_le unit))]⟩

theorem Uniform.size_grow (uniform : pool.Uniform unit) (whole : unit ∣ n) (more : 0 < n) :
    (pool.grow n).size = pool.size + n := by
  cases pool with
  | io loops => rfl
  | sharded role live =>
    rw [size_grow_sharded, uniform.1, ← (per_of_dvd whole more).2]
    rfl

theorem size_shrink_sharded (role : Role) (unit k n : ℕ) :
    ((sharded role (List.replicate unit k)).shrink n).size = unit * role.shrink k (per unit n) := by
  simp only [shrink, size, List.map_replicate, List.sum_replicate_nat, List.length_replicate]

theorem Uniform.le_size_shrink (uniform : pool.Uniform unit) (whole : unit ∣ n) (more : 0 < n) :
    pool.size ≤ (pool.shrink n).size + n := by
  cases pool with
  | io loops =>
    show loops ≤ IOPool.shrink loops n + n
    unfold IOPool.shrink
    split <;> omega
  | sharded role live =>
    obtain ⟨_, k, rfl⟩ := uniform
    have all := Nat.mul_le_mul_left unit (role.le_shrink_add k (per unit n))
    rw [Nat.mul_add, ← (per_of_dvd whole more).2] at all
    rw [size_shrink_sharded, size, List.sum_replicate_nat]
    exact all

theorem Uniform.size_shrink (uniform : pool.Uniform unit) (whole : unit ∣ n) (more : 0 < n) (left : n < pool.size) :
    (pool.shrink n).size = pool.size - n := by
  cases pool with
  | io loops =>
    have left : n < loops := left
    show IOPool.shrink loops n = loops - n
    unfold IOPool.shrink
    split <;> omega
  | sharded role live =>
    obtain ⟨_, k, rfl⟩ := uniform
    obtain ⟨_, split⟩ := per_of_dvd whole more
    rw [size, List.sum_replicate_nat] at left
    have few : per unit n < k := by
      rw [split] at left
      exact Nat.lt_of_mul_lt_mul_left left
    rw [size_shrink_sharded, role.shrink_eq few, Nat.mul_sub, ← split, size, List.sum_replicate_nat]

end Uniform

end Pool

/-! ## Where the pools start -/

namespace Bucket

/-- The threads of each shard's pool, for a number of threads asked for. -/
def perShard (numThreads numShards : ℕ) : List ℕ :=
  let rem := if numShards < numThreads then numThreads % numShards else 0
  (List.range numShards).map fun i => max 1 (numThreads / numShards) + if i < rem then 1 else 0

theorem length_perShard (numThreads numShards : ℕ) : (perShard numThreads numShards).length = numShards := by
  rw [perShard, List.length_map, List.length_range]

theorem served_perShard (role : Role) (numThreads numShards : ℕ) :
    (Pool.sharded role (perShard numThreads numShards)).Served := by
  intro pool member
  obtain ⟨i, _, rfl⟩ := List.mem_map.mp member
  exact Nat.lt_add_right _ (Nat.le_max_left ..)

private theorem sum_range_rem (q rem n : ℕ) :
    ((List.range n).map fun i => q + if i < rem then 1 else 0).sum = n * q + min rem n := by
  induction n with
  | zero => simp only [List.range_zero, List.map_nil, List.sum_nil, Nat.zero_mul, Nat.min_zero, Nat.add_zero]
  | succ n ih =>
    rw [List.range_succ, List.map_append, List.sum_append, ih, List.map_singleton, List.sum_singleton, Nat.succ_mul]
    split <;> omega

/-- The total a bucket starts with: what was asked for, but one thread for each shard at the least. -/
theorem sum_perShard {numThreads numShards : ℕ} (some : 0 < numShards) :
    (perShard numThreads numShards).sum = max numShards numThreads := by
  rw [perShard, sum_range_rem]
  split
  · next more =>
    have whole : 1 ≤ numThreads / numShards := Nat.div_pos more.le some
    have rem := Nat.mod_lt numThreads some
    have parts := Nat.div_add_mod numThreads numShards
    rw [Nat.max_eq_right whole, Nat.min_eq_left rem.le, parts]
    exact (Nat.max_eq_right more.le).symm
  · next few =>
    have one : max 1 (numThreads / numShards) = 1 := by
      refine Nat.max_eq_left ?_
      rcases Nat.lt_or_eq_of_le (Nat.le_of_not_lt few) with less | rfl
      · rw [Nat.div_eq_of_lt less]
        exact Nat.zero_le 1
      · exact (Nat.div_self some).le
    rw [one]
    omega

/-- Shards get the same number of threads if the total can be shared out. -/
theorem uniform_perShard (role : Role) {numThreads numShards : ℕ} (some : 0 < numShards)
    (whole : numShards ∣ (perShard numThreads numShards).sum) :
    (Pool.sharded role (perShard numThreads numShards)).Uniform numShards := by
  refine ⟨length_perShard .., max 1 (numThreads / numShards), ?_⟩
  have none : (if numShards < numThreads then numThreads % numShards else 0) = 0 := by
    split
    · next more =>
      rw [sum_perShard some, Nat.max_eq_right more.le] at whole
      exact Nat.mod_eq_zero_of_dvd whole
    · rfl
  rw [perShard, none]
  simp only [Nat.not_lt_zero, if_false, Nat.add_zero]
  rw [List.map_const', List.length_range]

end Bucket

structure Bounds where
  min : ℕ
  max : ℕ
deriving DecidableEq, Repr

/-- A pool that is not to be tuned. -/
def Bounds.pinned (n : ℕ) : Bounds := ⟨n, n⟩

/-- The pools that `--tune-pools` names. -/
structure TunePools where
  io : Bool
  readers : Bool
  writers : Bool

/-- The command line. A ceiling of `0` and a `--tune-pools` that is not there are defaults; `main` divides by the
number of shards. -/
structure Options where
  shards : ℕ
  shards_pos : 0 < shards
  ioThreads : ℕ
  readers : ℕ
  writers : ℕ
  maxIoThreads : ℕ
  maxReaders : ℕ
  maxWriters : ℕ
  tuneWritersOnly : Bool
  tunePools : Option TunePools

namespace Options

variable (o : Options) (hardwareConcurrency : ℕ)

def ioBounds : Bounds :=
  let hw := max 1 hardwareConcurrency
  let io : Bounds := ⟨1, max (if o.maxIoThreads ≠ 0 then o.maxIoThreads else hw) o.ioThreads⟩
  let io := if o.tuneWritersOnly then .pinned o.ioThreads else io
  if o.tunePools.any (!·.io) then .pinned o.ioThreads else io

def readerBounds : Bounds :=
  let hw := max 1 hardwareConcurrency
  let rd : Bounds := ⟨o.shards, max (if o.maxReaders ≠ 0 then o.maxReaders else 4 * hw) o.readers⟩
  let rd := if o.tuneWritersOnly then .pinned o.readers else rd
  if o.tunePools.any (!·.readers) then .pinned o.readers else rd

def writerBounds : Bounds :=
  let hw := max 1 hardwareConcurrency
  let wr : Bounds := ⟨o.shards, if o.maxWriters ≠ 0 then o.maxWriters else 2 * hw⟩
  let wr := if o.tunePools.any (!·.writers) then .pinned o.writers else wr
  { wr with max := max wr.max o.writers }

def threads : Role → ℕ
  | .readers => o.readers
  | .writers => o.writers

def bounds : Role → Bounds
  | .readers => o.readerBounds hardwareConcurrency
  | .writers => o.writerBounds hardwareConcurrency

end Options

end FluxKV.Tuner
