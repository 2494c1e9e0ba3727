import FluxKV.Connection.Send.Reply
import FluxKV.Machine.Run
import FluxKV.Machine.Threads

/-! # The sending half of a connection

Responses leave a connection from its loop and, with `--direct-send`, from reader threads as well. `sendMu_`
guards what they share. A sender that finds the mutex taken leaves its responses in `sendPending_`, a write
the kernel took in part leaves its tail in `spill_`, and the count of requests in flight keeps the connection
alive and on its loop.

The loop and each call of `sendDirect` is a thread with a stack of operations. A `Move` is one branch of one
operation: one access to what threads share, and the local work around it. Callbacks posted to the loop are
operations that it starts when its stack is empty. Requests that a reader has finished with go back to a free
list, which is left out.
-/

namespace FluxKV.Connection.Send

open Machine Protocol

structure Config where
  directSend : Bool
  flushDelayUs : ℕ
  flushBytes : ℕ

def kMaxPerSend : ℕ := 256

/-- A chunk of responses written together, and whether the loop has to finish it. -/
abbrev Chunk := List GetReply × Bool

/-- Why the loop takes `sendMu_` outside the write paths. -/
inductive Section where
  | close
  | watch
  | unwatch
deriving DecidableEq, Repr

/-- What a thread has still to do. -/
inductive Op where
  /-- `sendDirect`, before its `try_lock`. -/
  | sendDirect (reqs : List GetReply)
  /-- It takes the extra count. -/
  | hold (reqs : List GetReply)
  | loadPending (reqs : List GetReply)
  | casPending (reqs : List GetReply) (old : Option GetReply)
  /-- It tries the mutex again. -/
  | retry
  /-- `sendHeld`, before it takes what others left. -/
  | take (unsent : List GetReply) (chunks : List Chunk)
  /-- `writeDirectLocked` looks whether it may write to the socket. -/
  | look (unsent : List GetReply) (chunks : List Chunk)
  | send (unsent : List GetReply) (chunks : List Chunk) (clear : Bool)
  | unlockHeld (chunks : List Chunk)
  | recheck (chunks : List Chunk)
  | relock (chunks : List Chunk)
  /-- `finishBatch` for each chunk. -/
  | finish (chunks : List Chunk)
  /-- `releaseOutstanding`, before its `try_lock`. -/
  | release (k : ℕ)
  | check (k : ℕ)
  | unlock
  | load (k : ℕ)
  | lower (k : ℕ) (v : ℤ)
  /-- `drainPendingSends`. -/
  | drain
  | drainTry
  /-- `flushPending`, and the batch whose requests are released after it. -/
  | flush (after : Option ℕ)
  | flushLock (after : Option ℕ)
  | flushSpill (after : Option ℕ)
  | flushBuf (locked : Bool)
  | flushEnd (locked : Bool)
  /-- Inside a write call of the socket. -/
  | inWrite
  /-- `writeChainLocked`. -/
  | writeChain (r : Reply)
  | chainLock (r : Reply)
  | chainSpill (r : Reply)
  | chainBuf (r : Reply) (locked : Bool)
  | chainEnd (locked : Bool)
  | scheduleFlush
  /-- `sendWriteResponse` or `sendGetResponse`. -/
  | respond (r : Reply)
  /-- The callback that `finishBatch` posts. -/
  | batch (reqs : List GetReply)
  /-- A decrement on the loop, with `onDrained` if it was the last. -/
  | subDrain (k : ℕ)
  | destroy
  | lock (why : Section)
  | mark (why : Section)
  | closeSocket
  /-- Inside `close`, which fails the writes still queued. -/
  | inClose
  | closeCheck (evb : Bool)
  | delete
  | migrateTo
  | migrateCheck
  | tryFinishMigrate
  | leave
  | detach
  | finishAttach
  | resumeRead
  /-- The parse loop. -/
  | parse
  /-- What follows the parse loop. A wake may defer its flush. -/
  | settle (wake : Bool)
  | settled (wake : Bool)
deriving DecidableEq, Repr

structure State where
  sendMu : Mutex
  sendPending : List GetReply
  outstanding : ℤ
  sendClosed : Bool
  drainWatch : Bool
  spillPosted : Bool
  spill : Bytes
  follyWrites : ℤ
  /-- The writes the socket has queued, with what is left of each, and the bytes the kernel took. -/
  queued : List Bytes
  wire : Bytes
  /-- Fields of the loop. -/
  pendingWriteBuf : Bytes
  inflightBufs : List Bytes
  closing : Bool
  migrating : Bool
  migrateCheckPending : Bool
  flushScheduled : Bool
  readPaused : Bool
  stageFull : Bool
  /-- The read callback is set, and the socket has an event base. -/
  reading : Bool
  attached : Bool
  /-- Callbacks and timers of the connection that are scheduled on its loop. -/
  flushCb : Bool
  flushTimeout : Bool
  migrateCb : Bool
  resumeTimeout : Bool
  /-- Requests the engine has. -/
  engine : List ℕ
  /-- The loop's stack, then one per call of a reader. -/
  calls : List (List Op)
  /-- Callbacks posted to the loop. -/
  mail : List Op
  /-- What happened: responses handed to the send paths, those in the loop's buffer, those in the stream,
  whether a direct write failed, and how often the connection was deleted. -/
  handed : List Reply
  buffered : List Reply
  written : List Reply
  broken : Bool
  deleted : ℕ

def State.start : State where
  sendMu := .free
  sendPending := []
  outstanding := 0
  sendClosed := false
  drainWatch := false
  spillPosted := false
  spill := []
  follyWrites := 0
  queued := []
  wire := []
  pendingWriteBuf := []
  inflightBufs := []
  closing := false
  migrating := false
  migrateCheckPending := false
  flushScheduled := false
  readPaused := false
  stageFull := false
  reading := true
  attached := true
  flushCb := false
  flushTimeout := false
  migrateCb := false
  resumeTimeout := false
  engine := []
  calls := [[]]
  mail := []
  handed := []
  buffered := []
  written := []
  broken := false
  deleted := 0

namespace State

/-- `writeOwned`, and the write of a chain with the buffer its entry keeps. -/
def write (s : State) (kept bytes : Bytes) : State :=
  { s with
    inflightBufs := s.inflightBufs ++ [kept]
    follyWrites := s.follyWrites + 1
    queued := s.queued ++ [bytes] }

def post (s : State) (op : Op) : State := { s with mail := s.mail ++ [op] }

/-- Whether `scheduleMigrateCheck` schedules the check. -/
def wantsCheck (s : State) : Bool := !s.migrateCheckPending && s.migrating && s.attached

def scheduleMigrateCheck (s : State) : State :=
  { s with
    migrateCheckPending := s.migrateCheckPending || s.wantsCheck
    migrateCb := s.migrateCb || s.wantsCheck }

/-- The destructor takes the callbacks and timers off the loop. -/
def deleteThis (s : State) : State :=
  { s with
    flushCb := false
    flushTimeout := false
    migrateCb := false
    resumeTimeout := false
    deleted := s.deleted + 1 }

/-- Whether `pauseForQueue` pauses, called where the queue was found full. -/
def pauses (s : State) : Bool := s.stageFull && !s.closing && !s.migrating && !s.readPaused && s.attached

def pauseForQueue (s : State) : State :=
  { s with
    stageFull := false
    readPaused := s.readPaused || s.pauses
    reading := s.reading && !s.pauses
    resumeTimeout := s.resumeTimeout || s.pauses }

/-- A write is over and its entry goes. -/
def complete (s : State) : State :=
  { s with
    follyWrites := s.follyWrites - 1
    queued := s.queued.tail
    inflightBufs := s.inflightBufs.tail }

/-- `writeSuccess`: a migration that waited for the last write is checked again. -/
def writeSuccess (s : State) : State :=
  { s.complete with
    migrateCheckPending := s.migrateCheckPending || (s.inflightBufs.tail.isEmpty && s.wantsCheck)
    migrateCb := s.migrateCb || (s.inflightBufs.tail.isEmpty && s.wantsCheck) }

/-- The socket may call back: the loop waits for events, or is in a write. -/
def callsBack (s : State) : Bool := (stackAt s.calls 0).head?.all fun op => op = .inWrite ∨ op = .inClose

end State

/-- The branches of the operations. -/
inductive Move where
  | directLocked (reqs : List GetReply)
  | directBusy (reqs : List GetReply)
  | hold (reqs : List GetReply)
  | loadPending (reqs : List GetReply) (old : Option GetReply)
  | casMiss (reqs : List GetReply) (old now : Option GetReply)
  | casPush (reqs : List GetReply) (old : Option GetReply)
  | retryLocked
  | retryBusy
  | take (unsent : List GetReply) (chunks : List Chunk) (left : List GetReply)
  | look (unsent : List GetReply) (chunks : List Chunk) (clear : Bool)
  | lookDone (chunks : List Chunk)
  /-- The socket takes the whole chunk. -/
  | sendAll (unsent : List GetReply) (chunks : List Chunk)
  /-- It takes some bytes of it, or none, and the rest is spilled. -/
  | sendSome (unsent : List GetReply) (chunks : List Chunk) (clear : Bool) (sent : ℕ) (post : Bool)
  /-- It fails. -/
  | sendBroken (unsent : List GetReply) (chunks : List Chunk)
  | sendNone (unsent : List GetReply) (chunks : List Chunk) (clear : Bool)
  | unlockHeld (chunks : List Chunk)
  | recheckNone (chunks : List Chunk)
  | recheckSome (chunks : List Chunk)
  | relockLocked (chunks : List Chunk)
  | relockBusy (chunks : List Chunk)
  | finishPost (reqs : List GetReply) (chunks : List Chunk)
  | finishDirect (reqs : List GetReply) (chunks : List Chunk)
  | finishDone
  | releaseLocked (k : ℕ)
  | releaseBusy (k : ℕ)
  | checkFast (k : ℕ)
  | checkSlow (k : ℕ)
  | unlock
  | load (k : ℕ) (v : ℤ)
  | lowerMiss (k : ℕ) (v now : ℤ)
  | lowerCas (k : ℕ) (v : ℤ)
  | lowerPost (k : ℕ) (v : ℤ)
  | lowerDone (v : ℤ)
  | drainNone
  | drainSome
  | drainLocked
  | drainBusy
  | flushClosing (after : Option ℕ)
  | flushClosed (after : Option ℕ)
  | flushDirect (after : Option ℕ)
  | flushPlain (after : Option ℕ)
  | flushLock (after : Option ℕ)
  | flushSpillNone (after : Option ℕ)
  | flushSpillSome (after : Option ℕ)
  | flushBufNone (locked : Bool)
  | flushBufSome (locked : Bool)
  | flushUnlock
  | flushDone
  | leaveWrite
  | chainDirect (r : Reply)
  | chainPlain (r : Reply)
  | chainLock (r : Reply)
  | chainSpillNone (r : Reply)
  | chainSpillSome (r : Reply)
  | chainBuf (r : Reply) (locked : Bool)
  | chainUnlock
  | chainDone
  | flushSkip
  | flushNow
  | flushTimer
  | flushLoop
  | respondOpen (r : Reply)
  | respondClosed (r : Reply)
  | batch (reqs : List GetReply)
  | subMore (k : ℕ)
  | subDelete (k : ℕ)
  | subCheck (k : ℕ)
  | destroyAgain
  | destroy (evb : Bool)
  | lockFor (why : Section)
  | markClose
  | markWatch
  | markUnwatch
  | closeSocket
  | leaveClose
  | closeDelete
  | closeKeep (evb : Bool)
  | delete
  | migrateRefused
  | migrateTo
  | migrateCheck
  | finishNone
  | finishClosing
  | finishWait
  | finishGo
  | leaveFlush
  | leaveWait
  | leaveGo
  | detach
  | finishAttach
  | resumeRead
  | parseEnd
  /-- A request goes to the engine. -/
  | parseDispatch (id : ℕ)
  /-- The write queue refuses one, which is answered at once. -/
  | parseRefuse (r : Reply)
  /-- One is answered by the cache's callback, or acknowledged on acceptance. -/
  | parseServe (r : Reply)
  /-- One is answered by `serveCachedGets`, which arms the flush. -/
  | parseCached (r : Reply)
  /-- A bootstrap request. -/
  | parseBuilt (r : Reply)
  /-- A header that closes the connection. -/
  | parseBad
  | parseFull
  | settle (wake : Bool)
  | settledFlush (wake : Bool)
  | settledSchedule
  | settledNothing
deriving Repr

namespace Move

/-- The operation that a move carries out. -/
def op : Move → Op
  | directLocked reqs | directBusy reqs => .sendDirect reqs
  | hold reqs => .hold reqs
  | loadPending reqs _ => .loadPending reqs
  | casMiss reqs old _ | casPush reqs old => .casPending reqs old
  | retryLocked | retryBusy => .retry
  | take unsent chunks _ => .take unsent chunks
  | look unsent chunks _ => .look unsent chunks
  | lookDone chunks => .look [] chunks
  | sendAll unsent chunks | sendBroken unsent chunks => .send unsent chunks true
  | sendSome unsent chunks clear _ _ | sendNone unsent chunks clear => .send unsent chunks clear
  | unlockHeld chunks => .unlockHeld chunks
  | recheckNone chunks | recheckSome chunks => .recheck chunks
  | relockLocked chunks | relockBusy chunks => .relock chunks
  | finishPost reqs chunks => .finish ((reqs, true) :: chunks)
  | finishDirect reqs chunks => .finish ((reqs, false) :: chunks)
  | finishDone => .finish []
  | releaseLocked k | releaseBusy k => .release k
  | checkFast k | checkSlow k => .check k
  | unlock => .unlock
  | load k _ => .load k
  | lowerMiss k v _ | lowerCas k v | lowerPost k v => .lower k v
  | lowerDone v => .lower 0 v
  | drainNone | drainSome => .drain
  | drainLocked | drainBusy => .drainTry
  | flushClosing after | flushClosed after | flushDirect after | flushPlain after => .flush after
  | flushLock after => .flushLock after
  | flushSpillNone after | flushSpillSome after => .flushSpill after
  | flushBufNone locked | flushBufSome locked => .flushBuf locked
  | flushUnlock => .flushEnd true
  | flushDone => .flushEnd false
  | leaveWrite => .inWrite
  | chainDirect r | chainPlain r => .writeChain r
  | chainLock r => .chainLock r
  | chainSpillNone r | chainSpillSome r => .chainSpill r
  | chainBuf r locked => .chainBuf r locked
  | chainUnlock => .chainEnd true
  | chainDone => .chainEnd false
  | flushSkip | flushNow | flushTimer | flushLoop => .scheduleFlush
  | respondOpen r | respondClosed r => .respond r
  | batch reqs => .batch reqs
  | subMore k | subDelete k | subCheck k => .subDrain k
  | destroyAgain | destroy _ => .destroy
  | lockFor why => .lock why
  | markClose => .mark .close
  | markWatch => .mark .watch
  | markUnwatch => .mark .unwatch
  | closeSocket => .closeSocket
  | leaveClose => .inClose
  | closeDelete => .closeCheck true
  | closeKeep evb => .closeCheck evb
  | delete => .delete
  | migrateRefused | migrateTo => .migrateTo
  | migrateCheck => .migrateCheck
  | finishNone | finishClosing | finishWait | finishGo => .tryFinishMigrate
  | leaveFlush | leaveWait | leaveGo => .leave
  | detach => .detach
  | finishAttach => .finishAttach
  | resumeRead => .resumeRead
  | parseEnd | parseDispatch _ | parseRefuse _ | parseServe _ | parseCached _ | parseBuilt _ | parseBad | parseFull => .parse
  | settle wake => .settle wake
  | settledFlush wake => .settled wake
  | settledSchedule | settledNothing => .settled true

/-- How far the slow path of `releaseOutstanding` lowers the count at once: never to zero. -/
def lowered (k : ℕ) (v : ℤ) : ℕ := min k (v - 1).toNat

/-- The release of a batch whose flush is over. -/
def released (after : Option ℕ) : List Op := (after.map Op.subDrain).toList

/-- What a move leaves its thread to do instead of the operation. -/
def new : Move → List Op
  | directLocked reqs => [.take reqs []]
  | directBusy reqs => [.hold reqs]
  | hold reqs => [.loadPending reqs]
  | loadPending reqs old => [.casPending reqs old]
  | casMiss reqs _ now => [.casPending reqs now]
  | casPush _ _ => [.retry]
  | retryLocked => [.take [] [], .release 1]
  | retryBusy => [.release 1]
  | take unsent chunks left => [.look (unsent ++ left) chunks]
  | look unsent chunks clear => [.send unsent chunks clear]
  | lookDone chunks => [.unlockHeld chunks]
  | sendAll unsent chunks | sendBroken unsent chunks | sendNone unsent chunks _ =>
    [.look (unsent.drop kMaxPerSend) (chunks ++ [(unsent.take kMaxPerSend, false)])]
  | sendSome unsent chunks _ _ post =>
    [.look (unsent.drop kMaxPerSend) (chunks ++ [(unsent.take kMaxPerSend, post)])]
  | unlockHeld chunks => [.recheck chunks]
  | recheckNone chunks => [.finish chunks]
  | recheckSome chunks => [.relock chunks]
  | relockLocked chunks => [.take [] chunks]
  | relockBusy chunks => [.finish chunks]
  | finishPost _ chunks => [.finish chunks]
  | finishDirect reqs chunks => [.release reqs.length, .finish chunks]
  | finishDone => []
  | releaseLocked k => [.check k]
  | releaseBusy k => [.load k]
  | checkFast _ => [.unlock]
  | checkSlow k => [.unlock, .load k]
  | unlock => []
  | load k v => [.lower k v]
  | lowerMiss k _ now => [.lower k now]
  | lowerCas k v => [.lower (k - lowered k v) (v - lowered k v)]
  | lowerPost _ _ => []
  | lowerDone _ => []
  | drainNone => []
  | drainSome => [.drainTry]
  | drainLocked => [.take [] []]
  | drainBusy => []
  | flushClosing after => .drain :: released after
  | flushClosed after => released after
  | flushDirect after => [.flushLock after]
  | flushPlain after => .flushBuf false :: released after
  | flushLock after => [.flushSpill after]
  | flushSpillNone after => .flushBuf true :: released after
  | flushSpillSome after => .inWrite :: .flushBuf true :: released after
  | flushBufNone locked => [.flushEnd locked]
  | flushBufSome locked => [.inWrite, .flushEnd locked]
  | flushUnlock => [.drain]
  | flushDone => []
  | leaveWrite => []
  | chainDirect r => [.chainLock r]
  | chainPlain r => [.chainBuf r false]
  | chainLock r => [.chainSpill r]
  | chainSpillNone r => [.chainBuf r true]
  | chainSpillSome r => [.inWrite, .chainBuf r true]
  | chainBuf _ locked => [.inWrite, .chainEnd locked]
  | chainUnlock => [.drain]
  | chainDone => []
  | flushSkip | flushTimer | flushLoop => []
  | flushNow => [.flush none]
  | respondOpen _ => [.scheduleFlush, .subDrain 1]
  | respondClosed _ => [.subDrain 1]
  | batch reqs => [.flush (some reqs.length)]
  | subMore _ | subDelete _ | subCheck _ => []
  | destroyAgain => []
  | destroy evb => [.lock .close, .drain, .closeSocket, .closeCheck evb]
  | lockFor why => [.mark why]
  | markClose | markWatch | markUnwatch => [.unlock]
  | closeSocket => [.inClose]
  | leaveClose | closeDelete | closeKeep _ | delete => []
  | migrateRefused => []
  | migrateTo => [.lock .watch, .migrateCheck]
  | migrateCheck => []
  | finishNone | finishWait => []
  | finishClosing => [.lock .unwatch]
  | finishGo => [.leave]
  | leaveFlush => [.flush none]
  | leaveWait => []
  | leaveGo => [.detach]
  | detach => []
  | finishAttach => [.lock .unwatch, .resumeRead]
  | resumeRead => [.parse, .settle true]
  | parseEnd => []
  | parseDispatch _ | parseServe _ | parseFull => [.parse]
  | parseRefuse r => [.respond r, .parse]
  | parseCached _ => [.scheduleFlush, .parse]
  | parseBuilt r => [.writeChain r, .parse]
  | parseBad => [.destroy, .parse]
  | settle wake => [.settled wake]
  | settledFlush _ => [.flush none]
  | settledSchedule => [.scheduleFlush]
  | settledNothing => []

/-- Whether a thread can make the move now. -/
def guard (cfg : Config) (s : State) (i : ℕ) : Move → Bool
  | directLocked _ | retryLocked | relockLocked _ | releaseLocked _ | drainLocked | flushLock _ | chainLock _
  | lockFor _ => s.sendMu.available i
  | directBusy _ | retryBusy | relockBusy _ | releaseBusy _ | drainBusy => !s.sendMu.available i
  | loadPending _ old => s.sendPending.head? = old
  | casMiss _ _ now => s.sendPending.head? = now
  | casPush _ old => s.sendPending.head? = old
  | take _ _ left => s.sendPending = left
  | look unsent _ clear => unsent ≠ [] ∧ clear = decide (s.spill = [] ∧ s.follyWrites = 0)
  | sendAll _ _ | sendBroken _ _ => !s.sendClosed
  | sendSome unsent _ clear sent post =>
    s.sendClosed = false ∧ sent < (iovOf (unsent.take kMaxPerSend)).flatten.length ∧ (clear = false → sent = 0) ∧
      post = !s.spillPosted
  | sendNone _ _ _ => s.sendClosed
  | recheckNone _ | drainNone => s.sendPending = []
  | recheckSome _ | drainSome => s.sendPending ≠ []
  | checkFast _ => !s.sendClosed && !s.drainWatch
  | checkSlow _ => s.sendClosed || s.drainWatch
  | load _ v => s.outstanding = v
  | lowerMiss k v now => 0 < k ∧ 1 < v ∧ s.outstanding = now
  | lowerCas k v => 0 < k ∧ 1 < v ∧ s.outstanding = v
  | lowerPost k v => 0 < k ∧ v ≤ 1
  | flushClosing _ => s.closing && cfg.directSend
  | flushClosed _ => s.closing && !cfg.directSend
  | flushDirect _ => !s.closing && cfg.directSend
  | flushPlain _ => !s.closing && !cfg.directSend
  | flushSpillNone _ | chainSpillNone _ => s.spill = []
  | flushSpillSome _ | chainSpillSome _ => s.spill ≠ []
  | flushBufNone _ => s.pendingWriteBuf = []
  | flushBufSome _ => s.pendingWriteBuf ≠ []
  | chainDirect _ => cfg.directSend
  | chainPlain _ => !cfg.directSend
  | flushSkip => s.closing ∨ s.flushScheduled ∧ ¬ (s.flushTimeout ∧ cfg.flushBytes ≤ s.pendingWriteBuf.length)
  | flushNow => s.closing = false ∧ s.flushScheduled ∧ s.flushTimeout ∧ cfg.flushBytes ≤ s.pendingWriteBuf.length
  | flushTimer =>
    s.closing = false ∧ s.flushScheduled = false ∧ 0 < cfg.flushDelayUs ∧ s.pendingWriteBuf.length < cfg.flushBytes
  | flushLoop =>
    s.closing = false ∧ s.flushScheduled = false ∧
      (cfg.flushDelayUs = 0 ∨ cfg.flushBytes ≤ s.pendingWriteBuf.length)
  | respondOpen _ => !s.closing
  | respondClosed _ => s.closing
  | subMore k => s.outstanding ≠ k
  | subDelete k => s.outstanding = k ∧ s.closing
  | subCheck k => s.outstanding = k ∧ s.closing = false
  | destroyAgain => s.closing
  | destroy evb => s.closing = false ∧ evb = s.attached
  | leaveClose => s.queued = []
  | closeDelete => s.outstanding = 0
  | closeKeep evb => s.outstanding ≠ 0 ∨ evb = false
  | migrateTo => !s.closing && !s.migrating
  | finishNone => !s.migrating
  | finishClosing => s.migrating && s.closing
  | finishWait => s.migrating ∧ s.closing = false ∧ s.outstanding ≠ 0
  | finishGo => s.migrating ∧ s.closing = false ∧ s.outstanding = 0
  | leaveFlush => s.pendingWriteBuf ≠ []
  | leaveWait => s.pendingWriteBuf = [] ∧ s.inflightBufs ≠ []
  | leaveGo => s.pendingWriteBuf = [] ∧ s.inflightBufs = []
  | parseDispatch _ | parseRefuse _ | parseServe _ | parseCached _ | parseBuilt _ | parseBad | parseFull =>
    !s.closing && !s.stageFull
  | settledFlush wake => wake = false ∨ cfg.flushDelayUs = 0
  | settledSchedule => 0 < cfg.flushDelayUs ∧ s.pendingWriteBuf ≠ []
  | settledNothing => 0 < cfg.flushDelayUs ∧ s.pendingWriteBuf = []
  | _ => true

/-- What the move does to the connection. -/
def effect (s : State) (i : ℕ) : Move → State
  | directLocked _ | retryLocked | relockLocked _ | releaseLocked _ | drainLocked | flushLock _ | chainLock _
  | lockFor _ => { s with sendMu := s.sendMu.acquire i }
  | unlockHeld _ | unlock | flushUnlock | chainUnlock => { s with sendMu := s.sendMu.release }
  | hold _ => { s with outstanding := s.outstanding + 1 }
  | casPush reqs _ => { s with sendPending := reqs ++ s.sendPending }
  | take _ _ _ => { s with sendPending := [] }
  | sendAll unsent _ =>
    { s with
      wire := s.wire ++ (iovOf (unsent.take kMaxPerSend)).flatten
      written := s.written ++ (unsent.take kMaxPerSend).map .get }
  | sendSome unsent _ _ sent _ =>
    { s with
      wire := s.wire ++ (iovOf (unsent.take kMaxPerSend)).flatten.take sent
      spill := s.spill ++ Send.unsent (iovOf (unsent.take kMaxPerSend)) sent
      spillPosted := true
      written := s.written ++ (unsent.take kMaxPerSend).map .get }
  | sendBroken _ _ => { s with broken := true }
  | finishPost reqs _ => s.post (.batch reqs)
  | checkFast k => { s with outstanding := s.outstanding - k }
  | lowerCas k v => { s with outstanding := v - lowered k v }
  | lowerPost k _ => s.post (.subDrain k)
  | flushSpillNone _ => { s with spillPosted := false }
  | flushSpillSome _ => { s with spillPosted := false, spill := [] }.write s.spill s.spill
  | flushBufSome _ =>
    { s with
      pendingWriteBuf := []
      buffered := []
      written := s.written ++ s.buffered }.write s.pendingWriteBuf s.pendingWriteBuf
  | chainSpillSome _ => { s with spill := [] }.write s.spill s.spill
  | chainBuf r _ => { s with written := s.written ++ [r] }.write [] r.frame
  | flushNow => { s with flushTimeout := false, flushScheduled := false }
  | flushTimer => { s with flushScheduled := true, flushTimeout := true }
  | flushLoop => { s with flushScheduled := true, flushCb := true }
  | respondOpen r | parseServe r | parseCached r =>
    { s with
      pendingWriteBuf := s.pendingWriteBuf ++ r.frame
      handed := s.handed ++ [r]
      buffered := s.buffered ++ [r] }
  | subMore k => { s with outstanding := s.outstanding - k }
  | subDelete k => { s with outstanding := s.outstanding - k }.deleteThis
  | subCheck k => { s with outstanding := s.outstanding - k }.scheduleMigrateCheck
  | destroy _ =>
    { s with
      closing := true
      flushCb := false
      migrateCb := false
      resumeTimeout := false
      readPaused := false
      migrating := false
      flushScheduled := false }
  | markClose => { s with sendClosed := true, spill := [] }
  | markWatch => { s with drainWatch := true }
  | markUnwatch => { s with drainWatch := false }
  | closeSocket => { s with reading := false }
  | closeDelete => s.post .delete
  | delete => s.deleteThis
  | migrateTo => { s with migrating := true }
  | migrateCheck => { s with reading := false }.scheduleMigrateCheck
  | finishClosing => { s with migrating := false }
  | leaveFlush => { s with flushTimeout := false, flushCb := false, flushScheduled := false }
  | leaveGo =>
    { s with
      flushCb := false
      migrateCb := false
      migrateCheckPending := false
      flushScheduled := false
      flushTimeout := false
      resumeTimeout := false
      readPaused := false }
  | detach => { s with attached := false }.post .finishAttach
  | finishAttach => { s with attached := true, migrating := false }
  | resumeRead => { s with reading := true }
  | parseDispatch id => { s with outstanding := s.outstanding + 1, engine := s.engine ++ [id] }
  | parseRefuse _ => { s with outstanding := s.outstanding + 1 }
  | parseBuilt r => { s with handed := s.handed ++ [r] }
  | parseFull => { s with stageFull := true }
  | settle _ => s.pauseForQueue
  | _ => s

end Move

/-- The callbacks that the idle loop starts. -/
inductive Call where
  | readDataAvailable
  | readEnd
  | flushCb
  | flushTimeout
  | migrateCb
  /-- `resumeAfterQueue`: not paused, not to resume, to wait again, or to resume. -/
  | resumeStale
  | resumeStop
  | resumeWait
  | resume
  | migrateTo
  /-- A callback that was posted. -/
  | mail (op : Op)
deriving Repr

namespace Call

def guard (s : State) : Call → Bool
  | readDataAvailable | readEnd => s.reading && s.attached
  | flushCb => s.flushCb
  | flushTimeout => s.flushTimeout
  | migrateCb => s.migrateCb
  | resumeStale => s.resumeTimeout && !s.readPaused
  | resumeStop => s.resumeTimeout && s.readPaused && (s.closing || s.migrating)
  | resumeWait | resume => s.resumeTimeout && s.readPaused && !s.closing && !s.migrating
  | migrateTo => s.attached
  | mail op => op ∈ s.mail

def effect (s : State) : Call → State
  | flushCb => { s with flushCb := false, flushScheduled := false }
  | flushTimeout => { s with flushTimeout := false, flushScheduled := false }
  | migrateCb => { s with migrateCb := false, migrateCheckPending := false }
  | resumeStale => { s with resumeTimeout := false }
  | resumeStop => { s with resumeTimeout := false, readPaused := false }
  | resume => { s with resumeTimeout := false, readPaused := false, reading := true }
  | mail op => { s with mail := s.mail.erase op }
  | _ => s

def new : Call → List Op
  | readDataAvailable => [.parse, .settle true]
  | readEnd => [.destroy]
  | flushCb | flushTimeout => [.flush none]
  | migrateCb => [.tryFinishMigrate]
  | resumeStale | resumeStop | resumeWait => []
  | resume => [.parse, .settle false]
  | migrateTo => [.migrateTo]
  | mail op => [op]

end Call

inductive Event where
  /-- A thread makes a move. -/
  | run (i : ℕ) (m : Move)
  /-- The loop starts a callback. -/
  | call (c : Call)
  /-- A reader passes responses to `sendDirect`. -/
  | reader (reqs : List GetReply)
  /-- An engine thread posts a response to the loop. -/
  | answer (id : ℕ) (r : Reply)
  /-- The kernel takes bytes of the first write the socket has queued. -/
  | progress (n : ℕ)
  /-- `writeSuccess`. -/
  | success
  /-- `writeErr`. -/
  | failure
deriving Repr

namespace State

def setStack (s : State) (i : ℕ) (st : List Op) : State := { s with calls := s.calls.set i st }

def enabled (cfg : Config) (s : State) : Event → Bool
  | .run i m => (stackAt s.calls i).head? = some m.op ∧ m.guard cfg s i
  | .call c => stackAt s.calls 0 = [] ∧ c.guard s
  | .reader reqs => cfg.directSend ∧ reqs ≠ [] ∧ (reqs.map GetReply.id).Subperm s.engine
  | .answer id _ => id ∈ s.engine
  | .progress n => s.callsBack ∧ 0 < n ∧ n ≤ (s.queued.headD []).length
  | .success => s.callsBack ∧ s.queued.head? = some []
  | .failure => s.callsBack ∧ s.queued ≠ []

def next (s : State) : Event → State
  | .run i m => (m.effect s i).setStack i (m.new ++ (stackAt s.calls i).tail)
  | .call c => (c.effect s).setStack 0 c.new
  | .reader reqs =>
    { s with
      engine := s.engine.diff (reqs.map GetReply.id)
      calls := s.calls ++ [[.sendDirect reqs]]
      handed := s.handed ++ reqs.map .get }
  | .answer id r => { s with engine := s.engine.erase id }.post (.respond r)
  | .progress n =>
    { s with
      wire := s.wire ++ (s.queued.headD []).take n
      queued := (s.queued.headD []).drop n :: s.queued.tail }
  | .success => s.writeSuccess
  | .failure => s.complete.setStack 0 (.destroy :: stackAt s.calls 0)

def step (cfg : Config) (s : State) (e : Event) : Option State :=
  if s.enabled cfg e then some (s.next e) else none

theorem step_eq_some {cfg : Config} {s t : State} {e : Event} (taken : s.step cfg e = some t) :
    s.enabled cfg e ∧ s.next e = t :=
  ite_some_eq_some.mp taken

end State

end FluxKV.Connection.Send
