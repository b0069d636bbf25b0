import Flashsale.CorrectnessChecker
import Flashsale.TornWrites
set_option autoImplicit false

/-!
The engine of the core: one ingress queue, whose dispatcher takes requests in
batches and hands each to the worker of its SKU. A session runs from `InitEngine`
to the end of `StopEngine`; a step is the next access of one thread to what the
threads share.
-/

namespace Flashsale.CoreEngine
open Engine (Statics WalRecord Append barrierId)

abbrev kWorkerCount : Nat := 4

instance kWorkerCount_neZero : NeZero kWorkerCount := ⟨by decide⟩

abbrev WorkerId := Fin kWorkerCount

/-- `Request`, `CSeckillRequest` and `WorkerRequest`, which have one layout. -/
structure Request where
  skuId : Int64
  qty : Int32
  guestId : UInt64
  requestId : UInt64
  deriving DecidableEq, Inhabited

structure CSeckillResult where
  skuId : Int64
  qty : Int32
  guestId : UInt64
  requestId : UInt64
  status : Int32
  deriving DecidableEq, Inhabited

/-- The callers of the result queue: the `k`-th attempt of a worker to notify, and
a call of `PollResult`. -/
inductive ResultCaller (κ : Type) where
  | worker (i : WorkerId) (k : Nat)
  | poller (c : κ)
  deriving DecidableEq

structure Shared (κ : Type) where
  resultQueue : MpmcQueue.State Nat CSeckillResult (ResultCaller κ)
  soldTotal : UInt64
  soldOut : Int64 → Option Bool
  barrierReached : UInt64

/-- Where `Loop` stands. `items` are the requests of the batch not processed yet,
`count` is the size of the whole batch. -/
inductive Loop where
  | batch
  /-- Inside `try_dequeue_batch`; `recheck` is the second one, after `running_` was false. -/
  | dequeue (recheck : Bool)
  | testRunning
  | setBusy (items : List Request)
  | process (items : List Request) (count : Nat)
  | flag (req : Request) (res : CSeckillResult) (items : List Request) (count : Nat)
  | notify (res : CSeckillResult) (items : List Request) (count : Nat)
  | publish (res : CSeckillResult) (items : List Request) (count : Nat)
  | addCount (count : Nat)
  | exited
  deriving DecidableEq

/-- `wal` are the calls of `Append`, each with how its `write` ended; what they leave
in the file is `Worker.file`. `processed` is history: the requests passed to `Process`. -/
structure Worker where
  queue : SpscQueue.State Request
  running : Bool
  isProcessing : Bool
  processedCount : UInt64
  inventory : Int64 → Option Int32
  seenRequests : List UInt64
  wal : List Append
  tries : Nat
  pc : Loop
  processed : List Request

def initialInventory (sku : Int64) : Option Int32 :=
  if sku = 123 then some 10000000
  else if sku = 456 then some 100
  else if sku = 999 then some 100
  else if sku = 888 then some 5
  else none

def startWorker : Worker where
  queue := SpscQueue.create 16384
  running := true
  isProcessing := false
  processedCount := 0
  inventory := initialInventory
  seenRequests := []
  wal := []
  tries := 0
  pc := .batch
  processed := []

def kBatchSize : Nat := 64

def Worker.isDuplicate (w : Worker) (reqId : UInt64) : Bool × Worker :=
  if reqId ∈ w.seenRequests then (true,w)
  else
    let seen := reqId :: w.seenRequests
    (false,{ w with seenRequests := if seen.length > 100000 then [] else seen })

def Request.result (req : Request) (status : Int32) : CSeckillResult where
  skuId := req.skuId
  qty := req.qty
  guestId := req.guestId
  requestId := req.requestId
  status := status

def Worker.deduct (w : Worker) (req : Request) : Int32 × Worker :=
  match w.inventory req.skuId with
  | some stock =>
      if stock ≥ req.qty then
        (1,{ w with inventory := Function.update w.inventory req.skuId (some (stock - req.qty)) })
      else (2,w)
  | none => (0,w)

section Worker
variable {κ : Type}

/-- `Process` up to its last access to `sold_total_`. -/
def Worker.process (w : Worker) (sh : Shared κ) (req : Request) (items : List Request)
    (count : Nat) : Shared κ × Worker :=
  let w := { w with processed := w.processed ++ [req], pc := .process items count }
  if req.requestId = barrierId then
    ({ sh with barrierReached := sh.barrierReached + 1 },w)
  else
    match w.isDuplicate req.requestId with
    | (true,w) => (sh,w)
    | (false,w) =>
        let (status,w) := w.deduct req
        ({ sh with
            soldTotal := if status = 1 then sh.soldTotal + req.qty.toInt64.toUInt64 else sh.soldTotal },
          { w with pc := .flag req (req.result status) items count })

def Shared.storeFlag (sh : Shared κ) (w : Worker) (sku : Int64) : Shared κ :=
  if w.inventory sku = some 0 then
    match sh.soldOut sku with
    | some _ => { sh with soldOut := Function.update sh.soldOut sku (some true) }
    | none => sh
  else sh

/-- What `WriteToWal` meets: the system clock, what the unused bytes of the record hold,
and how many bytes `write` stores, or its error. -/
structure WalWrite where
  now : UInt64
  pad : UInt32
  written : Option Nat

/-- What `Append` returns is not looked at. -/
def Worker.writeToWal (w : Worker) (req : Request) (wr : WalWrite) : Worker :=
  let record : WalRecord :=
    { timestampNs := wr.now
      skuId := req.skuId
      qty := req.qty
      requestId := req.requestId
      guestId := req.guestId }
  { w with wal := w.wal ++ [⟨record,wr.pad,wr.written⟩] }

def Worker.file (w : Worker) (file : List UInt8) : List UInt8 := Engine.session file w.wal

variable [DecidableEq κ]

def Worker.step (w : Worker) (sh : Shared κ) (i : WorkerId) (wr : WalWrite) (spurious : Bool) :
    Option (Shared κ × Worker) :=
  match w.pc with
  | .batch =>
      (w.queue.next (.tryDequeueBatch kBatchSize)).map fun q =>
        (sh,{ w with queue := q, pc := .dequeue false })
  | .dequeue recheck =>
      match w.queue.consumer with
      | .ret [] => some (sh,{ w with pc := if recheck then .exited else .testRunning })
      | .ret items => some (sh,{ w with pc := .setBusy items })
      | _ => (w.queue.next .consume).map fun q => (sh,{ w with queue := q })
  | .testRunning =>
      if w.running then some (sh,{ w with pc := .batch })
      else
        (w.queue.next (.tryDequeueBatch kBatchSize)).map fun q =>
          (sh,{ w with queue := q, pc := .dequeue true })
  | .setBusy items =>
      some (sh,{ w with isProcessing := true, pc := .process items items.length })
  | .process [] count => some (sh,{ w with isProcessing := false, pc := .addCount count })
  | .process (req :: items) count => some (w.process sh req items count)
  | .flag req res items count =>
      let w' := if res.status = 1 then w.writeToWal req wr else w
      some (sh.storeFlag w req.skuId,{ w' with pc := .notify res items count })
  | .notify res items count =>
      (sh.resultQueue.next (.enqueue (.worker i w.tries) res)).map fun q =>
        ({ sh with resultQueue := q },{ w with pc := .publish res items count })
  | .publish res items count =>
      match sh.resultQueue.pc (.worker i w.tries) with
      | .enqReturn _ (some _) =>
          some (sh,{ w with tries := w.tries + 1, pc := .process items count })
      | .enqReturn _ none =>
          some (sh,{ w with tries := w.tries + 1, pc := .notify res items count })
      | _ =>
          (sh.resultQueue.next (.step (.worker i w.tries) spurious)).map fun q =>
            ({ sh with resultQueue := q },w)
  | .addCount count =>
      some (sh,{ w with
        processedCount := w.processedCount + count.toUInt64
        pc := .batch })
  | .exited => none

end Worker

/-- The callers of the ingress queue: the `k`-th attempt of a client's call to
enqueue, and the `k`-th `try_dequeue` of the dispatcher. -/
inductive Caller (κ : Type) where
  | client (c : κ) (k : Nat)
  | dispatcher (k : Nat)
  deriving DecidableEq

inductive Dispatcher where
  /-- The items of the batch not dispatched yet; without any, `running` is tested. -/
  | loop (k : Nat) (items : List Request)
  | loadDequeuePos (k : Nat)
  | loadEnqueuePos (k : Nat) (dequeuePos : Nat)
  | dequeue (k : Nat) (batch : List Request)
  | dequeuing (k : Nat) (batch : List Request)
  /-- `targets` are the workers that have still to get the request. -/
  | push (k : Nat) (targets : List WorkerId) (req : Request) (items : List Request)
  | pushing (k : Nat) (i : WorkerId) (targets : List WorkerId) (req : Request) (items : List Request)
  | testRunning (k : Nat) (i : WorkerId) (targets : List WorkerId) (req : Request)
      (items : List Request)
  | exited
  deriving DecidableEq

inductive Api where
  | enqueueRequest (creq : Request)
  | enqueueBatch (reqs : List Request)
  | waitEngineDrained
  | pollResult
  | enableCorrectnessCheck (enabled : Int32)
  | getConsumerStats

/-- Where a client's call stands; `todo` are the items of `EnqueueBatch` not enqueued yet. -/
inductive Call where
  | idle
  | requestTestRunning (creq : Request)
  | batchTestRunning (reqs : List Request)
  | testFlag (creq : Request)
  | enqueue (todo : List Request) (enqueued : Nat)
  | enqueuing (todo : List Request) (enqueued : Nat)
  | enterDrain
  | resetBarrier
  | signal (k : Nat)
  | signalling (k : Nat)
  | awaitBarrier
  | awaitRunning
  | leaveDrain
  | storeCheck (enabled : Int32)
  | resetExpectedSeq
  | resetGapCount
  | resetDupCount
  | resetLastSeqSeen
  | loadLastSeqSeen
  | loadGapCount (lastSeq : UInt64)
  | loadDupCount (lastSeq gap : UInt64)
  | polling
  | ret (n : Nat)
  | retResult (res : Option CSeckillResult)
  | retStats (lastSeq gap dup : UInt64)
  deriving DecidableEq

inductive Stop where
  | notCalled
  | joinDispatcher
  | stopWorker (i : Nat)
  | joinWorker (i : Nat)
  | returned
  deriving DecidableEq

/-- Where the check of a sequence number stands: the access it makes next, with what it
has read or computed. -/
inductive Check where
  | testEqual
  | loadExpectedSeq
  | storeExpectedSeq (seq : UInt64)
  | testLess
  | loadDupCount
  | storeDupCount (dup : UInt64)
  | subtract
  | loadGapCount (missing : UInt64)
  | storeGapCount (gap : UInt64)
  | storeLastSeqSeen
  deriving DecidableEq

structure Checking where
  id : UInt64
  pc : Check
  deriving DecidableEq

def Checking.goto (c : Checking) (pc : Check) : Option Checking := some { c with pc := pc }

def Checking.step (c : Checking) (st : Statics) : Option Checking × Statics :=
  match c.pc with
  | .testEqual => (c.goto (if c.id = st.expectedSeq then .loadExpectedSeq else .testLess),st)
  | .loadExpectedSeq => (c.goto (.storeExpectedSeq (st.expectedSeq + 1)),st)
  | .storeExpectedSeq seq => (c.goto .storeLastSeqSeen,{ st with expectedSeq := seq })
  | .testLess => (c.goto (if c.id < st.expectedSeq then .loadDupCount else .subtract),st)
  | .loadDupCount => (c.goto (.storeDupCount (st.dupCount + 1)),st)
  | .storeDupCount dup => (c.goto .storeLastSeqSeen,{ st with dupCount := dup })
  | .subtract => (c.goto (.loadGapCount (c.id - st.expectedSeq)),st)
  | .loadGapCount missing => (c.goto (.storeGapCount (st.gapCount + missing)),st)
  | .storeGapCount gap => (c.goto (.storeExpectedSeq (c.id + 1)),{ st with gapCount := gap })
  | .storeLastSeqSeen => (none,{ st with lastSeqSeen := c.id })

/-- `checking` is the check the dispatcher is in, before it dispatches the request.
`handled` and `dropped` are history: the requests the dispatcher has gone on to, and
those it gave up on. No step reads them. -/
structure State (κ : Type) where
  running : Bool
  inside : Bool
  statics : Statics
  shared : Shared κ
  queue : MpmcQueue.State Nat Request (Caller κ)
  dispatcher : Dispatcher
  checking : Option Checking
  workers : WorkerId → Worker
  calls : κ → Call
  stop : Stop
  handled : List Request
  dropped : List (WorkerId × Request)

/-- `std::abs((long)sku_id) % kWorkerCount`; the least value, which has no absolute
value in the type, is divisible by 4 however it is taken. -/
def workerIdx (sku : Int64) : WorkerId := Fin.ofNat kWorkerCount sku.toInt.natAbs

def barrierRequest : Request := { skuId := 0, qty := 0, guestId := 0, requestId := barrierId }

def Request.targets (req : Request) : List WorkerId :=
  if req.requestId = barrierId then List.finRange kWorkerCount else [workerIdx req.skuId]

def sessionFlags (sku : Int64) : Option Bool :=
  if sku = 123 ∨ sku = 456 ∨ sku = 999 ∨ sku = 888 then some false else none

def queueCap : Nat := 1024

section Engine
variable {κ : Type} [DecidableEq κ]

/-- `InitEngine`; `check_correctness` and `barrier_reached_count` keep their values. -/
def initEngine (checkCorrectness : Bool) (barrierReached : UInt64) : State κ where
  running := true
  inside := false
  statics :=
    { checkCorrectness := checkCorrectness
      expectedSeq := 1
      gapCount := 0
      dupCount := 0
      lastSeqSeen := 0 }
  shared :=
    { resultQueue := (MpmcQueue.create queueCap).get rfl
      soldTotal := 0
      soldOut := sessionFlags
      barrierReached := barrierReached }
  queue := (MpmcQueue.create queueCap).get rfl
  dispatcher := .loop 0 []
  checking := none
  workers _ := startWorker
  calls _ := .idle
  stop := .notCalled
  handled := []
  dropped := []

def State.setQueue (e : State κ) (i : WorkerId) (q : SpscQueue.State Request) : State κ :=
  { e with workers := Function.update e.workers i { e.workers i with queue := q } }

def State.setCall (e : State κ) (c : κ) (p : Call) : State κ :=
  { e with calls := Function.update e.calls c p }

def kDispatchBatch : Nat := 128

def State.dispatchNext (e : State κ) (spurious : Bool) : Option (State κ) :=
  match e.dispatcher with
  | .loop k [] =>
      some { e with dispatcher := if e.running then .dequeue k [] else .loadDequeuePos k }
  | .loadDequeuePos k => some { e with dispatcher := .loadEnqueuePos k e.queue.dequeuePos }
  | .loadEnqueuePos k dequeuePos =>
      some { e with
        dispatcher := if MpmcQueue.size dequeuePos e.queue.enqueuePos > 0 then .dequeue k []
          else .exited }
  | .dequeue k batch =>
      (e.queue.next (.dequeue (.dispatcher k))).map fun q =>
        { e with queue := q, dispatcher := .dequeuing k batch }
  | .dequeuing k batch =>
      match e.queue.pc (.dispatcher k) with
      | .deqReturn none => some { e with dispatcher := .loop (k+1) batch }
      | .deqReturn (some (_,req)) =>
          let batch := batch ++ [req]
          some { e with
            dispatcher := if batch.length < kDispatchBatch then .dequeue (k+1) batch
              else .loop (k+1) batch }
      | _ => (e.queue.next (.step (.dispatcher k) spurious)).map fun q => { e with queue := q }
  | .loop k (req :: items) =>
      let e := { e with
        handled := e.handled ++ [req]
        dispatcher := .push k req.targets req items }
      if req.requestId = barrierId then
        some { e with shared := { e.shared with barrierReached := 0 } }
      else some { e with
        checking := if e.statics.checkCorrectness then some ⟨req.requestId,.testEqual⟩ else none }
  | .push k [] _ items => some { e with dispatcher := .loop k items }
  | .push k (i :: targets) req items =>
      ((e.workers i).queue.next (.tryEnqueue req)).map fun q =>
        { e.setQueue i q with dispatcher := .pushing k i targets req items }
  | .pushing k i targets req items =>
      match (e.workers i).queue.producer with
      | .ret true => some { e with dispatcher := .push k targets req items }
      | .ret false => some { e with dispatcher := .testRunning k i targets req items }
      | _ => ((e.workers i).queue.next .produce).map (e.setQueue i)
  | .testRunning k i targets req items =>
      if e.running then some { e with dispatcher := .push k (i :: targets) req items }
      else some { e with
        dispatcher := .push k targets req items, dropped := e.dropped ++ [(i,req)] }
  | .exited => none

def State.dispatch (e : State κ) (spurious : Bool) : Option (State κ) :=
  match e.checking with
  | some c => some { e with checking := (c.step e.statics).1, statics := (c.step e.statics).2 }
  | none => e.dispatchNext spurious

def State.work (e : State κ) (i : WorkerId) (wr : WalWrite) (spurious : Bool) : Option (State κ) :=
  ((e.workers i).step e.shared i wr spurious).map fun (sh,w) =>
    { e with shared := sh, workers := Function.update e.workers i w }

def State.client (e : State κ) (c : κ) (spurious : Bool) : Option (State κ) :=
  match e.calls c with
  | .requestTestRunning creq =>
      some (e.setCall c (if e.running then .testFlag creq else .ret 0))
  | .batchTestRunning reqs =>
      some (e.setCall c (if e.running then .enqueue reqs 0 else .ret 0))
  | .testFlag creq =>
      some (e.setCall c
        (if e.shared.soldOut creq.skuId = some true then .ret 2 else .enqueue [creq] 0))
  | .enqueue [] enqueued => some (e.setCall c (.ret enqueued))
  | .enqueue (req :: todo) enqueued =>
      (e.queue.next (.enqueue (.client c enqueued) req)).map fun q =>
        { e with queue := q }.setCall c (.enqueuing (req :: todo) enqueued)
  | .enqueuing todo enqueued =>
      match e.queue.pc (.client c enqueued) with
      | .enqReturn _ (some _) => some (e.setCall c (.enqueue todo.tail (enqueued+1)))
      | .enqReturn _ none => some (e.setCall c (.ret enqueued))
      | _ =>
          (e.queue.next (.step (.client c enqueued) spurious)).map fun q => { e with queue := q }
  | .enterDrain =>
      some ({ e with inside := true }.setCall c (if e.inside then .ret 0 else .resetBarrier))
  | .resetBarrier =>
      some ({ e with shared := { e.shared with barrierReached := 0 } }.setCall c (.signal 0))
  | .signal k =>
      (e.queue.next (.enqueue (.client c k) barrierRequest)).map fun q =>
        { e with queue := q }.setCall c (.signalling k)
  | .signalling k =>
      match e.queue.pc (.client c k) with
      | .enqReturn _ (some _) => some (e.setCall c .awaitBarrier)
      | .enqReturn _ none => some (e.setCall c (.signal (k+1)))
      | _ => (e.queue.next (.step (.client c k) spurious)).map fun q => { e with queue := q }
  | .awaitBarrier =>
      some (e.setCall c
        (if e.shared.barrierReached.toNat ≥ kWorkerCount then .leaveDrain else .awaitRunning))
  | .awaitRunning => some (e.setCall c (if e.running then .awaitBarrier else .leaveDrain))
  | .leaveDrain => some ({ e with inside := false }.setCall c (.ret 0))
  | .storeCheck enabled =>
      some ({ e with statics := { e.statics with checkCorrectness := enabled ≠ 0 } }.setCall c
        (if enabled ≠ 0 then .resetExpectedSeq else .ret 0))
  | .resetExpectedSeq =>
      some ({ e with statics := { e.statics with expectedSeq := 1 } }.setCall c .resetGapCount)
  | .resetGapCount =>
      some ({ e with statics := { e.statics with gapCount := 0 } }.setCall c .resetDupCount)
  | .resetDupCount =>
      some ({ e with statics := { e.statics with dupCount := 0 } }.setCall c .resetLastSeqSeen)
  | .resetLastSeqSeen =>
      some ({ e with statics := { e.statics with lastSeqSeen := 0 } }.setCall c (.ret 0))
  | .loadLastSeqSeen => some (e.setCall c (.loadGapCount e.statics.lastSeqSeen))
  | .loadGapCount lastSeq => some (e.setCall c (.loadDupCount lastSeq e.statics.gapCount))
  | .loadDupCount lastSeq gap => some (e.setCall c (.retStats lastSeq gap e.statics.dupCount))
  | .polling =>
      match e.shared.resultQueue.pc (.poller c) with
      | .deqReturn won => some (e.setCall c (.retResult (won.map (·.2))))
      | _ =>
          (e.shared.resultQueue.next (.step (.poller c) spurious)).map fun q =>
            { e with shared := { e.shared with resultQueue := q } }
  | .idle | .ret _ | .retResult _ | .retStats _ _ _ => none

def State.start (e : State κ) (c : κ) (f : Api) : Option (State κ) :=
  match e.calls c with
  | .idle =>
      match f with
      | .enqueueRequest creq => some (e.setCall c (.requestTestRunning creq))
      | .enqueueBatch reqs => some (e.setCall c (.batchTestRunning reqs))
      | .waitEngineDrained => some (e.setCall c .enterDrain)
      | .enableCorrectnessCheck enabled => some (e.setCall c (.storeCheck enabled))
      | .getConsumerStats => some (e.setCall c .loadLastSeqSeen)
      | .pollResult =>
          (e.shared.resultQueue.next (.dequeue (.poller c))).map fun q =>
            { e with shared := { e.shared with resultQueue := q } }.setCall c .polling
  | _ => none

def State.stopEngine (e : State κ) : Option (State κ) :=
  match e.stop with
  | .notCalled => some { e with running := false, stop := .joinDispatcher }
  | .joinDispatcher =>
      if e.dispatcher = .exited then some { e with stop := .stopWorker 0 } else none
  | .stopWorker i =>
      if h : i < kWorkerCount then
        let w := e.workers ⟨i,h⟩
        some { e with
          workers := Function.update e.workers ⟨i,h⟩ { w with running := false }
          stop := .joinWorker i }
      else some { e with stop := .returned }
  | .joinWorker i =>
      if h : i < kWorkerCount then
        if (e.workers ⟨i,h⟩).pc = .exited then some { e with stop := .stopWorker (i+1) } else none
      else none
  | .returned => none

inductive Act (κ : Type) where
  | start (c : κ) (f : Api)
  | client (c : κ) (spurious : Bool)
  | dispatch (spurious : Bool)
  | work (i : WorkerId) (wr : WalWrite) (spurious : Bool)
  | stop

def State.next (e : State κ) : Act κ → Option (State κ)
  | .start c f => e.start c f
  | .client c spurious => e.client c spurious
  | .dispatch spurious => e.dispatch spurious
  | .work i wr spurious => e.work i wr spurious
  | .stop => e.stopEngine

def system : Transition.System (State κ) (Act κ) where
  init e := ∃ checkCorrectness barrierReached, e = initEngine checkCorrectness barrierReached
  next := State.next

end Engine
end Flashsale.CoreEngine
