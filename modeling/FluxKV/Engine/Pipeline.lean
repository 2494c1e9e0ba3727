import FluxKV.Cache.S3Fifo
import FluxKV.Engine.BatchSort
import FluxKV.Machine.Run

/-! # The write path as a machine

IO threads handle SET and DELETE: they put the document into the cache, stage the request in a chain of
their own per vbucket, and push the chains onto the vbucket queues at the end of a socket wake. A
writer sweeps one queue at a time, writes the batch to magma, releases the cache pins and returns the
queue bytes, at once or when the log is durable. Readers take a document from magma and fill the
cache with it later. On a server without a cache the same events happen and what they do to it is skipped.

One event is one atomic access or one critical section of one thread, so a tape of events is an
interleaving. The owner of a vbucket is one writer at a time, which is the business of the scheduling
protocol; here each vbucket has one writer slot. `History` records what happened and is read by no
transition.
-/

namespace FluxKV.Engine

open Protocol Cache Counting

/-- The options and constants the write path depends on. -/
structure Config where
  writeQueueMemLimit : ℕ
  sizeofRequest : ℕ
  sizeofRequest_pos : 0 < sizeofRequest
  durable : Bool
  asyncDurable : Bool
  notifier : Bool
  batchSort : BatchSort
  sortDupThreshold : ℚ
  numShards : ℕ
  hash : DocKey → UInt64
  shardMask : UInt64
  fillDoorkeeper : Bool

/-- Where an IO thread stands between two events. -/
inductive IoPc where
  | idle
  | handling (r : Request)
  | refused (r : Request)
  | flushing
deriving DecidableEq, Repr

/-- Where the writer of a vbucket stands in `executePersist`. -/
inductive Phase where
  | idle
  | swept
  | marking
  | stamped
  | parked
deriving DecidableEq, Repr

/-- The locals of one `executePersist`. Before the write `batch` is in arrival order; after it, the
kept requests come first and the dropped ones last. `toMark` are the `MarkPersisted` calls to come
and `trim` the shard the last one left over budget. -/
structure Writer where
  phase : Phase
  batch : List Request
  ok : Bool
  toMark : List (Request × ℕ)
  trim : Option DocKey
  lsn : ℕ
deriving DecidableEq, Repr

def Writer.idle : Writer := ⟨.idle, [], true, [], none, 0⟩

/-- A `PendingDurable`, or an entry of the notifier's ledger. `paid` are the requests whose queue bytes
it will return. -/
structure Waiting where
  lsn : ℕ
  bytes : ℕ
  reqs : List Request
  paid : List Request
deriving DecidableEq, Repr

/-- Where a read that missed the cache stands. -/
inductive ReadPhase where
  | idle
  | queued
  | taken
  | checked
  | admitted
deriving DecidableEq, Repr, Inhabited

/-- A read from its queue to its fill. `overtaken` records that a write of the key was applied after
the document was taken. -/
structure Read where
  phase : ReadPhase
  key : DocKey
  doc : Version
  overtaken : Bool
deriving DecidableEq, Repr, Inhabited

/-- The tables of `kMaxVBuckets` slots that are indexed by a vbucket id. -/
inductive Table where
  | staging
  | vbWriteQueues
  | vbReadQueues
  | seqnos
deriving DecidableEq, Repr

/-- A fill that inserted: the key, the document, and magma's version at that moment. -/
structure Insertion where
  key : DocKey
  doc : Version
  current : Option Version
deriving DecidableEq, Repr

/-- What happened so far. -/
structure History where
  /-- The next request identity. -/
  nextId : ℕ
  /-- Writes that were handled, and put into the cache if there is one, in order. -/
  puts : List Request
  /-- Writes put and neither marked persisted nor erased. -/
  pins : List Request
  /-- Writes put, not refused, and not yet pushed onto a vbucket queue. -/
  unpushed : List Request
  /-- Refused writes whose erase is still to come. -/
  refused : List Request
  /-- Writes `StageWrite` admitted, in order. -/
  accepted : List Request
  /-- Writes whose bytes were added to `queuedBytes_`. -/
  charged : List Request
  /-- Writes pushed onto a vbucket queue. -/
  flushed : List Request
  /-- Writes whose bytes were subtracted again. -/
  released : List Request
  /-- The batches swept from a vbucket queue, in arrival order. -/
  swept : UInt16 → List (List Request)
  /-- Those of them given to `WriteDocs`. -/
  handed : UInt16 → List (List Request)
  /-- The operations given to `WriteDocs`, with their seqnos. -/
  assigned : UInt16 → List (Request × ℕ)
  /-- Writes removed from their batch as duplicates. -/
  dropped : List Request
  /-- Writes of the batches for which `WriteDocs` failed. -/
  failed : List Request
  /-- The `MarkPersisted` calls. -/
  marked : List Request
  /-- Some `MarkPersisted` decremented a pin count of zero. -/
  wrapped : Bool
  /-- The log position each durable write waits for. -/
  stamps : List (Request × ℕ)
  inserted : List Insertion
  /-- Keys of the reads that were queued, and the slots they were given. -/
  enqueued : List DocKey
  readers : List ℕ
  accesses : List (Table × UInt16)

structure State (cfg : Config) where
  /-- Per IO thread: where it stands, and its `StagingTable`, each chain newest first. -/
  pc : ℕ → IoPc
  vbs : ℕ → UInt16 → List Request
  touched : ℕ → List UInt16
  bytes : ℕ → ℕ
  /-- The vbuckets the running `FlushStaged` has not reached. -/
  left : ℕ → List UInt16
  queuedBytes : ℕ
  /-- Per vbucket: its queue, newest first, its writer, its last seqno and its documents. -/
  list : UInt16 → List Request
  writer : UInt16 → Writer
  seqnos : UInt16 → ℕ
  store : UInt16 → Store
  cache : BucketCache cfg.hash cfg.shardMask
  /-- Magma's durable watermark, the notifier's ledger, and what it is about to return. -/
  watermark : ℕ
  ledger : List Waiting
  notified : Option (List Waiting)
  /-- Per shard: the batches its completion thread waits for, and those it is releasing. -/
  durableQueue : ℕ → List Waiting
  ready : ℕ → List Waiting
  reads : ℕ → Read
  hist : History

def History.empty : History where
  nextId := 0
  puts := []
  pins := []
  unpushed := []
  refused := []
  accepted := []
  charged := []
  flushed := []
  released := []
  swept := fun _ => []
  handed := fun _ => []
  assigned := fun _ => []
  dropped := []
  failed := []
  marked := []
  wrapped := false
  stamps := []
  inserted := []
  enqueued := []
  readers := []
  accesses := []

/-- A fresh server over what magma holds: an empty cache, if it has any bytes, and empty queues. -/
def State.initial (cfg : Config) (maxBytes : ℕ) (store : UInt16 → Store) (seqnos : UInt16 → ℕ) : State cfg where
  pc := fun _ => .idle
  vbs := fun _ _ => []
  touched := fun _ => []
  bytes := fun _ => 0
  left := fun _ => []
  queuedBytes := 0
  list := fun _ => []
  writer := fun _ => .idle
  seqnos := seqnos
  store := store
  cache := .start cfg.hash cfg.shardMask maxBytes
  watermark := 0
  ledger := []
  notified := none
  durableQueue := fun _ => []
  ready := fun _ => []
  reads := fun _ => default
  hist := .empty

/-- One atomic step of one thread. -/
inductive Event where
  /-- `handleSet` and `handleDelete`: the cache put, in the request's own thread. -/
  | put (r : Request) (sharedCapacity : Option ℕ)
  /-- `StageWrite` returns true. -/
  | accept (r : Request)
  /-- `StageWrite` returns false. -/
  | refuse (r : Request)
  /-- The handler of a refused write erases the key. -/
  | erase (r : Request)
  /-- `FlushStaged` charges the staged bytes. -/
  | charge (t : ℕ)
  /-- `FlushStaged` pushes one chain. -/
  | push (t : ℕ) (vb : UInt16)
  /-- `FlushStaged` returns. -/
  | flushed (t : ℕ)
  /-- `executePersist` sweeps the queue of a vbucket. -/
  | sweep (vb : UInt16)
  /-- `WriteDocs` returns, with success or with an error. -/
  | write (vb : UInt16) (ok : Bool)
  /-- The shared section of the next `MarkPersisted`. -/
  | mark (vb : UInt16) (r : Request) (seqno : ℕ)
  /-- Its trim section. -/
  | trim (vb : UInt16) (key : DocKey)
  /-- The writer returns the bytes of its batch and is done. -/
  | settle (vb : UInt16)
  /-- The writer reads the tail of the log. -/
  | stamp (vb : UInt16) (lsn : ℕ)
  /-- The writer parks its requests on the loops and hands the orphans over. -/
  | park (vb : UInt16)
  /-- The writer enters its bytes into the ledger and is done. -/
  | addBytes (vb : UInt16)
  /-- The writer leaves its batch to the completion thread and is done. -/
  | awaitDurable (vb : UInt16)
  /-- The log becomes durable up to a position. -/
  | watermark (lsn : ℕ)
  /-- `DurableNotifier::release` takes the covered entries off the ledger. -/
  | ledgerTake (durable : ℕ)
  /-- It returns their bytes. -/
  | ledgerSub (entries : List Waiting)
  /-- `durableLoop` takes the covered batches off its queue. -/
  | durableTake (shard durable : ℕ)
  /-- It returns the bytes of one of them. -/
  | durableSub (shard : ℕ) (p : Waiting)
  /-- A GET is queued: it missed the cache, or has no body to look a key up with. -/
  | enqueueRead (i : ℕ) (key : DocKey)
  /-- A reader takes the document from magma. -/
  | readTake (i : ℕ) (doc : Version)
  /-- A reader finds no document. -/
  | readMiss (i : ℕ)
  /-- The shared section of `PutIfAbsent`. -/
  | fillCheck (i : ℕ)
  /-- Its doorkeeper section. -/
  | fillDoor (i : ℕ)
  /-- Its insert section. -/
  | fillInsert (i : ℕ)
  /-- A GET looks the key up in the cache. -/
  | touch (key : DocKey)
  /-- `SetBudget` reaches one cache shard. -/
  | setBudget (shard maxBytes : ℕ)
deriving DecidableEq, Repr

namespace State

variable {cfg : Config}

def bytesOf (cfg : Config) (reqs : List Request) : ℕ := (reqs.map (Request.itemSize cfg.sizeofRequest)).sum

def shardOf (cfg : Config) (vb : UInt16) : ℕ := vb.toNat % cfg.numShards

/-- The batch waits for the log instead of being released at once. -/
def waitsForLog (s : State cfg) (vb : UInt16) : Prop :=
  cfg.durable = true ∧ cfg.asyncDurable = true ∧ (s.writer vb).ok = true

instance (s : State cfg) (vb : UInt16) : Decidable (s.waitsForLog vb) := inferInstanceAs (Decidable (_ ∧ _ ∧ _))

/-- Every `MarkPersisted` of the batch has returned. -/
def allMarked (s : State cfg) (vb : UInt16) : Prop :=
  (s.writer vb).phase = .marking ∧ (s.writer vb).toMark = [] ∧ (s.writer vb).trim = none

instance (s : State cfg) (vb : UInt16) : Decidable (s.allMarked vb) := inferInstanceAs (Decidable (_ ∧ _ ∧ _))

/-- A fill may insert: it passed the doorkeeper, or there is none. -/
def mayInsert (s : State cfg) (i : ℕ) : Prop :=
  (s.reads i).phase = .admitted ∨ (s.reads i).phase = .checked ∧ cfg.fillDoorkeeper = false

instance (s : State cfg) (i : ℕ) : Decidable (s.mayInsert i) := inferInstanceAs (Decidable (_ ∨ _ ∧ _))

/-- The bytes the queue would hold with this request, as `StageWrite` sees them. -/
def admission (s : State cfg) (r : Request) : ℕ :=
  s.queuedBytes + s.bytes r.thread + r.itemSize cfg.sizeofRequest

/-- Whether an event can happen now. -/
def enabled (s : State cfg) : Event → Bool
  | .put r sharedCapacity => decide (s.pc r.thread = .idle ∧ r.id = s.hist.nextId ∧
      (r.ioOwner ≠ none → cfg.durable = true) ∧ (r.opcode = .delete → sharedCapacity = none))
  | .accept r => decide (s.pc r.thread = .handling r ∧ s.admission r ≤ cfg.writeQueueMemLimit)
  | .refuse r => decide (s.pc r.thread = .handling r ∧ cfg.writeQueueMemLimit < s.admission r)
  | .erase r => decide (s.pc r.thread = .refused r)
  | .charge t => decide (s.pc t = .idle)
  | .push t vb => decide (s.pc t = .flushing ∧ (s.left t).head? = some vb)
  | .flushed t => decide (s.pc t = .flushing ∧ s.left t = [])
  | .sweep vb => decide ((s.writer vb).phase = .idle ∧ s.list vb ≠ [])
  | .write vb _ => decide ((s.writer vb).phase = .swept)
  | .mark vb r seqno => decide ((s.writer vb).phase = .marking ∧ (s.writer vb).trim = none ∧
      (s.writer vb).toMark.head? = some (r, seqno))
  | .trim vb key => decide ((s.writer vb).phase = .marking ∧ (s.writer vb).trim = some key)
  | .settle vb => decide (s.allMarked vb ∧ ¬ s.waitsForLog vb)
  | .stamp vb _ => decide (s.allMarked vb ∧ s.waitsForLog vb)
  | .park vb => decide ((s.writer vb).phase = .stamped ∧ cfg.notifier = true)
  | .addBytes vb => decide ((s.writer vb).phase = .parked)
  | .awaitDurable vb => decide ((s.writer vb).phase = .stamped ∧ cfg.notifier = false)
  | .watermark lsn => decide (s.watermark ≤ lsn)
  | .ledgerTake durable => decide (s.notified = none ∧ durable ≤ s.watermark)
  | .ledgerSub entries => decide (s.notified = some entries)
  | .durableTake shard durable => decide (s.ready shard = [] ∧ durable ≤ s.watermark)
  | .durableSub shard p => decide ((s.ready shard).head? = some p)
  | .enqueueRead i key => decide ((s.reads i).phase = .idle ∧ (key.2 = [] ∨ s.cache.contents key = none))
  | .readTake i doc => decide ((s.reads i).phase = .queued ∧
      s.store (s.reads i).key.1 (s.reads i).key.2 = some doc ∧ doc.content.deleted = false)
  | .readMiss i => decide ((s.reads i).phase = .queued ∧
      ∀ doc ∈ s.store (s.reads i).key.1 (s.reads i).key.2, doc.content.deleted = true)
  | .fillCheck i => decide ((s.reads i).phase = .taken)
  | .fillDoor i => decide ((s.reads i).phase = .checked ∧ cfg.fillDoorkeeper = true)
  | .fillInsert i => decide (s.mayInsert i)
  | .touch _ => true
  | .setBudget _ _ => true

/-- What an enabled event does. -/
def next (s : State cfg) : Event → State cfg
  | .put r sharedCapacity =>
    { s with
      pc := Function.update s.pc r.thread (.handling r)
      cache := s.cache.put r.docKey r.content sharedCapacity
      hist := { s.hist with
        nextId := s.hist.nextId + 1
        puts := s.hist.puts ++ [r]
        pins := s.hist.pins ++ [r]
        unpushed := s.hist.unpushed ++ [r] } }
  | .accept r =>
    let chain := s.vbs r.thread r.vbucket
    { s with
      pc := Function.update s.pc r.thread .idle
      bytes := Function.update s.bytes r.thread (s.bytes r.thread + r.itemSize cfg.sizeofRequest)
      touched := if chain = [] then
          Function.update s.touched r.thread (s.touched r.thread ++ [r.vbucket])
        else s.touched
      vbs := Function.update s.vbs r.thread (Function.update (s.vbs r.thread) r.vbucket (r :: chain))
      hist := { s.hist with
        accepted := s.hist.accepted ++ [r]
        accesses := s.hist.accesses ++ [(.staging, r.vbucket)] } }
  | .refuse r =>
    { s with
      pc := Function.update s.pc r.thread (.refused r)
      hist := { s.hist with
        refused := s.hist.refused ++ [r]
        unpushed := s.hist.unpushed.filter (· ≠ r) } }
  | .erase r =>
    { s with
      pc := Function.update s.pc r.thread .idle
      cache := s.cache.erase r.docKey
      hist := { s.hist with
        refused := s.hist.refused.erase r
        pins := s.hist.pins.erase r } }
  | .charge t =>
    { s with
      pc := Function.update s.pc t .flushing
      queuedBytes := s.queuedBytes + s.bytes t
      bytes := Function.update s.bytes t 0
      left := Function.update s.left t (s.touched t)
      hist := { s.hist with charged := s.hist.charged ++ (s.touched t).flatMap (s.vbs t) } }
  | .push t vb =>
    let chain := s.vbs t vb
    { s with
      left := Function.update s.left t (s.left t).tail
      vbs := Function.update s.vbs t (Function.update (s.vbs t) vb [])
      list := Function.update s.list vb (chain ++ s.list vb)
      hist := { s.hist with
        flushed := s.hist.flushed ++ chain
        unpushed := s.hist.unpushed.filter (· ∉ chain)
        accesses := s.hist.accesses ++ [(.staging, vb), (.vbWriteQueues, vb)] } }
  | .flushed t =>
    { s with
      pc := Function.update s.pc t .idle
      touched := Function.update s.touched t [] }
  | .sweep vb =>
    let batch := (s.list vb).reverse
    { s with
      list := Function.update s.list vb []
      writer := Function.update s.writer vb { Writer.idle with phase := .swept, batch }
      hist := { s.hist with
        swept := Function.update s.hist.swept vb (s.hist.swept vb ++ [batch])
        accesses := s.hist.accesses ++ [(.vbWriteQueues, vb)] } }
  | .write vb ok =>
    let w := s.writer vb
    let plan := planBatch cfg.batchSort cfg.sortDupThreshold w.batch
    let ops := assignSeqnos (s.seqnos vb) plan.1
    { s with
      seqnos := Function.update s.seqnos vb (s.seqnos vb + plan.1.length)
      store := if ok then Function.update s.store vb ((s.store vb).writeDocs ops) else s.store
      writer := Function.update s.writer vb
        { w with phase := .marking, batch := plan.1 ++ plan.2, ok, toMark := ops, trim := none }
      reads := fun i => if ok ∧ (s.reads i).key ∈ plan.1.map (fun r => (vb, r.key)) then
          { s.reads i with overtaken := true }
        else s.reads i
      hist := { s.hist with
        handed := Function.update s.hist.handed vb (s.hist.handed vb ++ [w.batch])
        assigned := Function.update s.hist.assigned vb (s.hist.assigned vb ++ ops)
        dropped := s.hist.dropped ++ plan.2
        failed := if ok then s.hist.failed else s.hist.failed ++ w.batch
        accesses := s.hist.accesses ++ plan.1.map fun _ => (.seqnos, vb) } }
  | .mark vb r seqno =>
    let w := s.writer vb
    let key := (vb, r.key)
    let marked := s.cache.markPersisted key (if w.ok then seqno else 0)
    { s with
      cache := marked.1
      writer := Function.update s.writer vb
        { w with toMark := w.toMark.tail, trim := if marked.2 then some key else none }
      hist := { s.hist with
        pins := s.hist.pins.erase r
        marked := s.hist.marked ++ [r]
        wrapped := s.hist.wrapped || (s.cache.contents key).any fun p => p.pending == 0 } }
  | .trim vb key =>
    { s with
      cache := s.cache.trim key
      writer := Function.update s.writer vb { s.writer vb with trim := none } }
  | .settle vb =>
    { s with
      queuedBytes := fetchSub 64 s.queuedBytes (bytesOf cfg (s.writer vb).batch)
      writer := Function.update s.writer vb .idle
      hist := { s.hist with released := s.hist.released ++ (s.writer vb).batch } }
  | .stamp vb lsn =>
    { s with
      writer := Function.update s.writer vb { s.writer vb with phase := .stamped, lsn }
      hist := { s.hist with stamps := s.hist.stamps ++ (s.writer vb).batch.map (·, lsn) } }
  | .park vb =>
    let w := s.writer vb
    let orphans := w.batch.filter fun r => r.ioOwner = none
    let queue := s.durableQueue (shardOf cfg vb)
    { s with
      durableQueue := Function.update s.durableQueue (shardOf cfg vb)
        (if orphans = [] then queue else queue ++ [⟨w.lsn, 0, orphans, []⟩])
      writer := Function.update s.writer vb { w with phase := .parked } }
  | .addBytes vb =>
    let w := s.writer vb
    { s with
      ledger := s.ledger ++ [⟨w.lsn, bytesOf cfg w.batch, [], w.batch⟩]
      writer := Function.update s.writer vb .idle }
  | .awaitDurable vb =>
    let w := s.writer vb
    { s with
      durableQueue := Function.update s.durableQueue (shardOf cfg vb)
        (s.durableQueue (shardOf cfg vb) ++ [⟨w.lsn, bytesOf cfg w.batch, w.batch, w.batch⟩])
      writer := Function.update s.writer vb .idle }
  | .watermark lsn => { s with watermark := lsn }
  | .ledgerTake durable =>
    { s with
      ledger := s.ledger.filter fun e => durable < e.lsn
      notified := some (s.ledger.filter fun e => e.lsn ≤ durable) }
  | .ledgerSub entries =>
    { s with
      queuedBytes := fetchSub 64 s.queuedBytes (entries.map Waiting.bytes).sum
      notified := none
      hist := { s.hist with released := s.hist.released ++ entries.flatMap Waiting.paid } }
  | .durableTake shard durable =>
    { s with
      ready := Function.update s.ready shard ((s.durableQueue shard).takeWhile fun p => p.lsn ≤ durable)
      durableQueue := Function.update s.durableQueue shard
        ((s.durableQueue shard).dropWhile fun p => p.lsn ≤ durable) }
  | .durableSub shard p =>
    { s with
      queuedBytes := fetchSub 64 s.queuedBytes p.bytes
      ready := Function.update s.ready shard (s.ready shard).tail
      hist := { s.hist with released := s.hist.released ++ p.paid } }
  | .enqueueRead i key =>
    { s with
      reads := Function.update s.reads i ⟨.queued, key, default, false⟩
      hist := { s.hist with
        enqueued := s.hist.enqueued ++ [key]
        readers := s.hist.readers ++ [i]
        accesses := s.hist.accesses ++ [(.vbReadQueues, key.1)] } }
  | .readTake i doc =>
    -- without a cache there is nothing to fill
    let phase := if s.cache.docCache.isSome then .taken else .idle
    { s with
      reads := Function.update s.reads i { s.reads i with phase, doc, overtaken := false }
      hist := { s.hist with accesses := s.hist.accesses ++ [(.vbReadQueues, (s.reads i).key.1)] } }
  | .readMiss i =>
    { s with
      reads := Function.update s.reads i { s.reads i with phase := .idle }
      hist := { s.hist with accesses := s.hist.accesses ++ [(.vbReadQueues, (s.reads i).key.1)] } }
  | .fillCheck i =>
    let absent := s.cache.contents (s.reads i).key = none
    { s with
      reads := Function.update s.reads i
        { s.reads i with phase := if absent then .checked else .idle } }
  | .fillDoor i =>
    let door := s.cache.fillDoorkeeper (s.reads i).key
    { s with
      cache := door.2
      reads := Function.update s.reads i { s.reads i with phase := if door.1 then .admitted else .idle } }
  | .fillInsert i =>
    let key := (s.reads i).key
    let doc := (s.reads i).doc
    { s with
      cache := s.cache.fillInsert key doc
      reads := Function.update s.reads i { s.reads i with phase := .idle }
      hist := { s.hist with
        inserted := if s.cache.contents key = none then
            s.hist.inserted ++ [⟨key, doc, s.store key.1 key.2⟩]
          else s.hist.inserted } }
  | .touch key => { s with cache := s.cache.touch key }
  | .setBudget shard maxBytes => { s with cache := s.cache.setBudget shard maxBytes }

def step (s : State cfg) (e : Event) : Option (State cfg) := if s.enabled e then some (s.next e) else none

theorem step_eq_some {s t : State cfg} {e : Event} : s.step e = some t ↔ s.enabled e ∧ t = s.next e :=
  Machine.ite_some_eq_some.trans (and_congr_right fun _ => eq_comm)

theorem eq_foldl_of_exec {s t : State cfg} {tape : List Event} (run : Machine.exec State.step s tape = some t) :
    t = tape.foldl State.next s :=
  Machine.foldl_of_exec (fun taken => (step_eq_some.mp taken).2) run

end State

/-- A small server for worked runs: one cache shard, asynchronous writes, batches never sorted. -/
def plainConfig : Config where
  writeQueueMemLimit := 1000
  sizeofRequest := 1
  sizeofRequest_pos := Nat.one_pos
  durable := false
  asyncDurable := false
  notifier := false
  batchSort := .never
  sortDupThreshold := 0
  numShards := 1
  hash := fun _ => 0
  shardMask := 0
  fillDoorkeeper := false

/-- A SET of a one-byte value to the key `k`, vbucket 0. -/
def plainSet (id thread : ℕ) (value : UInt8) : Request := ⟨id, thread, 0, [107], .set [value] 0 0 0, none⟩

/-- An empty server whose cache holds `maxBytes`. -/
def plainStart (cfg : Config) (maxBytes : ℕ) : State cfg := .initial cfg maxBytes (fun _ _ => none) fun _ => 0

end FluxKV.Engine
