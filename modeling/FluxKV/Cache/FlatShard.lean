import FluxKV.Cache.FlatIndex
import FluxKV.Cache.Shard
import FluxKV.ToMathlib.IntrusiveList
import Mathlib.Data.Finset.Basic

/-! # A cache shard in memory

The shard as the code keeps it: entries on the heap under their addresses, linked into one of two
queues through fields of their own, and found through an open-addressing index of their hashes. The
ghost queue is a deque beside a set. A new entry is built before the shard's lock is taken and enters
the heap here when it is linked; the address it is given is an argument, free before the call.
-/

namespace FluxKV.Cache

open Engine Protocol Counting IntrusiveList

/-- `struct Entry`, its queue links apart. -/
structure Node where
  key : DocKey
  doc : Version
  pending : UInt32
  freq : ℕ
  queue : Queue
  sharedCapacity : Option ℕ
deriving DecidableEq, Repr

namespace Node

/-- The entry without its key, its pins as a number. -/
def entry (n : Node) : Entry := ⟨n.doc, n.pending.toNat, n.freq, n.queue, n.sharedCapacity⟩

def charge (n : Node) : ℕ := n.entry.charge n.key

end Node

/-- `struct Fifo`. -/
structure FlatFifo (P : Type*) where
  ends : Ends P
  bytes : ℕ
  count : ℕ
deriving DecidableEq, Repr

/-- `struct Shard`, its statistics and seqno index apart. `fifos` holds `small` and `main`. -/
structure FlatShard (P : Type*) where
  heap : P → Option Node
  links : Links P
  index : FlatIndex P
  fifos : Queue → FlatFifo P
  ghost : List UInt64
  ghostSet : Finset UInt64
  budget : ℕ
  smallBudget : ℕ
  pendingItems : ℕ

/-- What `GetCopy` reports. A tombstone comes with its metadata and no value. -/
inductive CopyResult where
  | miss
  | hit (doc : Version)
  | tombstone (doc : Version)
  | tooLarge
deriving DecidableEq, Repr

namespace FlatShard

variable {P : Type*} [DecidableEq P] (hash : DocKey → UInt64)

def empty (perShard : ℕ) : FlatShard P where
  heap := fun _ => none
  links := ⟨fun _ => none, fun _ => none⟩
  index := .empty
  fifos := fun _ => ⟨⟨none, none⟩, 0, 0⟩
  ghost := []
  ghostSet := ∅
  budget := perShard
  smallBudget := perShard * kSmallPercent % 2 ^ 64 / 100
  pendingItems := 0

def bytes (s : FlatShard P) : ℕ := (s.fifos .small).bytes + (s.fifos .main).bytes

/-- `find`: probe under the hash for an entry with this key. -/
def find (s : FlatShard P) (key : DocKey) : Option P :=
  s.index.find (hash key) fun p => (s.heap p).any fun n => n.key = key

/-- The entry a search finds, with its address. -/
def lookup (s : FlatShard P) (key : DocKey) : Option (P × Node) :=
  (s.find hash key).bind fun p => (s.heap p).map fun n => (p, n)

def setNode (s : FlatShard P) (p : P) (n : Node) : FlatShard P := { s with heap := Function.update s.heap p (some n) }

/-- `Fifo::pushHead` of the entry at `p`. -/
def pushHead (s : FlatShard P) (queue : Queue) (p : P) (n : Node) : FlatShard P :=
  let fifo := s.fifos queue
  let pushed := IntrusiveList.pushHead s.links fifo.ends p
  { s with
    links := pushed.1
    fifos := Function.update s.fifos queue ⟨pushed.2, fifo.bytes + n.charge, fifo.count + 1⟩ }

/-- `Fifo::remove` of the entry at `p`. -/
def remove (s : FlatShard P) (queue : Queue) (p : P) (n : Node) : FlatShard P :=
  let fifo := s.fifos queue
  let removed := IntrusiveList.remove s.links fifo.ends p
  { s with
    links := removed.1
    fifos := Function.update s.fifos queue ⟨removed.2, fifo.bytes - n.charge, fifo.count - 1⟩ }

def unlink (s : FlatShard P) (p : P) (n : Node) : FlatShard P := s.remove n.queue p n

/-- The loop of `ghostAdd` that forgets the oldest hashes. -/
def trimGhost (cap : ℕ) : List UInt64 → Finset UInt64 → List UInt64 × Finset UInt64
  | [], set => ([], set)
  | h :: rest, set =>
    if cap < (h :: rest).length then trimGhost cap rest (set.erase h) else (h :: rest, set)

def ghostAdd (s : FlatShard P) (h : UInt64) : FlatShard P :=
  if h ∈ s.ghostSet then s
  else
    let trimmed := trimGhost (max 1024 (s.fifos .main).count) (s.ghost ++ [h]) (insert h s.ghostSet)
    { s with ghost := trimmed.1, ghostSet := trimmed.2 }

/-- Link a new entry, at the address `p`. -/
def insert (s : FlatShard P) (p : P) (n : Node) : FlatShard P :=
  let queue := if hash n.key ∈ s.ghostSet then Queue.main else Queue.small
  let linked := (s.setNode p { n with queue }).pushHead queue p { n with queue }
  { linked with index := linked.index.insert (hash n.key) p }

/-- Erase from the index and destroy. -/
def destroy (s : FlatShard P) (p : P) (n : Node) : FlatShard P :=
  { s with index := s.index.erase (hash n.key) p, heap := Function.update s.heap p none }

def free (s : FlatShard P) (p : P) (n : Node) : FlatShard P :=
  { s.destroy hash p n with
    pendingItems := if 0 < n.pending then fetchSub 64 s.pendingItems 1 else s.pendingItems }

def evictSmall (s : FlatShard P) : FlatShard P :=
  match (s.fifos .small).ends.tail with
  | none => s
  | some p =>
    match s.heap p with
    | none => s
    | some n =>
      let popped := s.remove .small p n
      if 0 < n.pending ∨ 1 < n.freq then
        let moved := { n with freq := 0, queue := .main }
        (popped.setNode p moved).pushHead .main p moved
      else (popped.ghostAdd (hash n.key)).free hash p n

def evictMain (s : FlatShard P) : FlatShard P :=
  match (s.fifos .main).ends.tail with
  | none => s
  | some p =>
    match s.heap p with
    | none => s
    | some n =>
      let popped := s.remove .main p n
      if 0 < n.pending ∨ 0 < n.freq then
        let passed := { n with freq := n.freq - 1 }
        (popped.setNode p passed).pushHead .main p passed
      else popped.free hash p n

/-- The loop of `evict`, bounded by its guard. -/
def evictLoop : ℕ → FlatShard P → FlatShard P
  | 0, s => s
  | guard + 1, s =>
    if s.bytes ≤ s.budget then s
    else if s.smallBudget < (s.fifos .small).bytes ∧ (s.fifos .small).ends.tail ≠ none then
      evictLoop guard (s.evictSmall hash)
    else if (s.fifos .main).ends.tail ≠ none then evictLoop guard (s.evictMain hash)
    else if (s.fifos .small).ends.tail ≠ none then evictLoop guard (s.evictSmall hash)
    else s

def evict (s : FlatShard P) : FlatShard P :=
  evictLoop hash ((kMaxFreq + 1) * ((s.fifos .small).count + (s.fifos .main).count) + 1) s

/-- `putEntry` up to its eviction: the new entry takes the place of the old one and its pins. -/
def replace (s : FlatShard P) (p : P) (key : DocKey) (content : Content) (sharedCapacity : Option ℕ) : FlatShard P :=
  let carry := ((s.lookup hash key).map fun old => old.2.pending).getD 0
  let cleared := match s.lookup hash key with
    | none => s
    | some (old, n) => (s.unlink old n).destroy hash old n
  let counted := { cleared with
    pendingItems := if carry = 0 then cleared.pendingItems + 1 else cleared.pendingItems }
  counted.insert hash p ⟨key, ⟨0, content⟩, carry + 1, 0, .small, sharedCapacity⟩

/-- `putEntry`, for `Put` and `PutShared`. -/
def putEntry (s : FlatShard P) (p : P) (key : DocKey) (content : Content) (sharedCapacity : Option ℕ) :
    FlatShard P :=
  (s.replace hash p key content sharedCapacity).evict hash

/-- `PutIfAbsent`. -/
def putIfAbsent (s : FlatShard P) (doorkeeper : Bool) (p : P) (key : DocKey) (doc : Version) : FlatShard P :=
  if (s.find hash key).isSome then s
  else if doorkeeper ∧ hash key ∉ s.ghostSet then s.ghostAdd (hash key)
  else (s.insert hash p ⟨key, doc, 0, 0, .small, none⟩).evict hash

def markPersisted (s : FlatShard P) (key : DocKey) (seqno : ℕ) : FlatShard P :=
  match s.lookup hash key with
  | none => s
  | some (p, n) =>
    let marked := s.setNode p { n with doc := Shard.noteSeqno seqno n.doc, pending := n.pending - 1 }
    if n.pending = 1 then
      let counted := { marked with pendingItems := fetchSub 64 s.pendingItems 1 }
      if s.budget < s.bytes then counted.evict hash else counted
    else marked

def erase (s : FlatShard P) (key : DocKey) : FlatShard P :=
  match s.lookup hash key with
  | none => s
  | some (p, n) => (s.unlink p n).free hash p n

/-- A hit is counted towards the entry's frequency. -/
def touch (s : FlatShard P) (p : P) (n : Node) : FlatShard P :=
  s.setNode p { n with freq := if n.freq < kMaxFreq then n.freq + 1 else n.freq }

def get (s : FlatShard P) (key : DocKey) : FlatShard P × Option Version :=
  match s.lookup hash key with
  | none => (s, none)
  | some (p, n) => (s.touch p n, some n.doc)

def getCopy (s : FlatShard P) (key : DocKey) (bufCap : ℕ) : FlatShard P × CopyResult :=
  match s.lookup hash key with
  | none => (s, .miss)
  | some (p, n) =>
    (s.touch p n,
      if n.doc.content.deleted then .tombstone { n.doc with content := { n.doc.content with value := [] } }
      else if bufCap < n.doc.content.value.length then .tooLarge
      else .hit n.doc)

/-- `SetBudget` on one shard. -/
def setBudget (s : FlatShard P) (perShard : ℕ) : FlatShard P :=
  { s with budget := perShard, smallBudget := perShard * kSmallPercent % 2 ^ 64 / 100 }.evict hash

end FlatShard

end FluxKV.Cache
