import Flashsale.MpmcQueue
import Flashsale.SpscQueue
set_option autoImplicit false

/-!
`Worker`: the queue its dispatcher fills, its own copy of the inventory, and
`Loop` with `Process`, one step for each access to what other threads share.
-/

namespace Flashsale.Engine

abbrev kWorkerCount : Nat := 2

instance kWorkerCount_neZero : NeZero kWorkerCount := ⟨by decide⟩

abbrev ShardId := Fin kWorkerCount

/-- `Request`, `CSeckillRequest` and `WorkerRequest`, which have one layout. -/
structure Request where
  skuId : Int64
  qty : Int32
  guestId : UInt64
  requestId : UInt64
  tsIngress : Int64
  tsPopMpmc : Int64
  tsPushSpsc : Int64
  tsPopSpsc : Int64
  deriving DecidableEq, Inhabited

structure CSeckillResult where
  skuId : Int64
  qty : Int32
  guestId : UInt64
  requestId : UInt64
  status : Int32
  mpmcLatencyNs : Int64
  spscLatencyNs : Int64
  tsIngress : Int64
  tsPopMpmc : Int64
  deriving DecidableEq, Inhabited

structure WalRecord where
  timestampNs : UInt64
  skuId : Int64
  qty : Int32
  requestId : UInt64
  guestId : UInt64
  deriving DecidableEq

structure Checker where
  enabled : Bool
  lastSeq : UInt64
  gap : UInt64
  dup : UInt64
  deriving DecidableEq

/-- The callers of the result queue: the `k`-th attempt of a worker to publish,
and a call of `PollResult`. -/
inductive ResultCaller (κ : Type) where
  | worker (i : ShardId) (k : Nat)
  | poller (c : κ)
  deriving DecidableEq

structure Shared (κ : Type) where
  resultQueue : MpmcQueue.State Nat CSeckillResult (ResultCaller κ)
  soldTotal : UInt64
  soldOut : Int64 → Option Bool
  barrierReached : UInt64

/-- Where `Loop` stands. `items` are the requests of the batch not processed yet,
`count` is the size of the whole batch. -/
inductive Loop where
  | batch
  /-- Inside `try_dequeue_batch`; `recheck` is the second one, after `running_` was false. -/
  | dequeue (recheck : Bool)
  | testRunning
  | setBusy (items : List Request)
  | process (items : List Request) (count : Nat)
  | flag (req : Request) (res : CSeckillResult) (items : List Request) (count : Nat)
  | notify (res : CSeckillResult) (items : List Request) (count : Nat)
  | publish (res : CSeckillResult) (items : List Request) (count : Nat)
  | addCount (count : Nat)
  | exited
  deriving DecidableEq

/-- `processed` and `decided` are history: the requests passed to `Process`, and
the results of those whose stock was looked at. No step reads them. -/
structure Worker where
  queue : SpscQueue.State Request
  running : Bool
  isProcessing : Bool
  processedCount : UInt64
  inventory : Int64 → Option Int32
  seenRequests : List UInt64
  wal : List WalRecord
  checker : Option Checker
  tries : Nat
  pc : Loop
  processed : List Request
  decided : List CSeckillResult

def initialInventory (sku : Int64) : Option Int32 :=
  if sku = 123 then some 10000000
  else if sku = 456 then some 100
  else if sku = 666 then some 100
  else if sku = 999 then some 100
  else if sku = 888 then some 5
  else if sku = 777 then some 50000
  else if 1001 ≤ sku ∧ sku ≤ 1008 then some 5000
  else none

def startWorker : Worker where
  queue := SpscQueue.create 16384
  running := true
  isProcessing := false
  processedCount := 0
  inventory := initialInventory
  seenRequests := []
  wal := []
  checker := none
  tries := 0
  pc := .batch
  processed := []
  decided := []

def kBatchSize : Nat := 64

def barrierId : UInt64 := 0xFFFFFFFFFFFFFFFF

/-- Ids above are those of the pure queue benchmark. -/
def benchmarkLimit : UInt64 := 18000000000000000000

def Worker.isDuplicate (w : Worker) (reqId : UInt64) : Bool × Worker :=
  if reqId ∈ w.seenRequests then (true,w)
  else
    let seen := reqId :: w.seenRequests
    (false,{ w with seenRequests := if seen.length > 100000 then [] else seen })

def Checker.check (c : Checker) (seq : UInt64) : Checker :=
  if c.enabled then
    if c.lastSeq = 0 ∧ seq = 1 then { c with lastSeq := 1 }
    else if seq > c.lastSeq then
      { c with
        gap := if seq ≠ c.lastSeq + 1 then c.gap + (seq - c.lastSeq - 1) else c.gap
        lastSeq := seq }
    else { c with dup := c.dup + 1 }
  else c

def Worker.checkCorrectness (w : Worker) (reqId : UInt64) : Worker :=
  { w with checker := w.checker.map (·.check reqId) }

def Request.result (req : Request) : CSeckillResult :=
  let timed := req.tsIngress > 0
  { skuId := req.skuId
    qty := req.qty
    guestId := req.guestId
    requestId := req.requestId
    status := 0
    mpmcLatencyNs := if timed then req.tsPopMpmc - req.tsIngress else 0
    spscLatencyNs := if timed then req.tsPopSpsc - req.tsPushSpsc else 0
    tsIngress := if timed then req.tsIngress else 0
    tsPopMpmc := if timed then req.tsPopMpmc else 0 }

/-- The result of a benchmark request, over whatever was in `res` before. -/
def Request.benchmarkResult (req : Request) (res : CSeckillResult) : CSeckillResult :=
  let res := { res with requestId := req.requestId, status := 1 }
  if req.tsIngress > 0 then
    { res with
      mpmcLatencyNs := req.tsPopMpmc - req.tsIngress
      spscLatencyNs := req.tsPopSpsc - req.tsPushSpsc }
  else res

def Worker.deduct (w : Worker) (req : Request) : Int32 × Worker :=
  match w.inventory req.skuId with
  | some stock =>
      if stock ≥ req.qty then
        (1,{ w with inventory := Function.update w.inventory req.skuId (some (stock - req.qty)) })
      else (2,w)
  | none => (0,w)

variable {κ : Type}

/-- `Process` up to its last access to `sold_total_`. -/
def Worker.process (w : Worker) (sh : Shared κ) (req : Request) (items : List Request)
    (count : Nat) (uninit : CSeckillResult) : Shared κ × Worker :=
  let w := { w with processed := w.processed ++ [req], pc := .process items count }
  if req.requestId = 0 then (sh,w)
  else if req.requestId = barrierId then
    ({ sh with barrierReached := sh.barrierReached + 1 },w)
  else if req.requestId > benchmarkLimit then
    (sh,{ w with pc := .notify (req.benchmarkResult uninit) items count })
  else
    match w.isDuplicate req.requestId with
    | (true,w) => (sh,w)
    | (false,w) =>
        let (status,w) := (w.checkCorrectness req.requestId).deduct req
        let res := { req.result with status := status }
        ({ sh with
            soldTotal := if status = 1 then sh.soldTotal + req.qty.toInt64.toUInt64 else sh.soldTotal },
          { w with decided := w.decided ++ [res], pc := .flag req res items count })

/-- The sold-out flag is set where the stock of a listed SKU is now zero. -/
def Shared.storeFlag (sh : Shared κ) (w : Worker) (sku : Int64) : Shared κ :=
  if w.inventory sku = some 0 then
    match sh.soldOut sku with
    | some _ => { sh with soldOut := Function.update sh.soldOut sku (some true) }
    | none => sh
  else sh

def Worker.writeToWal (w : Worker) (req : Request) (now : UInt64) : Worker :=
  let record : WalRecord :=
    { timestampNs := now
      skuId := req.skuId
      qty := req.qty
      requestId := req.requestId
      guestId := req.guestId }
  { w with wal := w.wal ++ [record] }

/-- What a step of a worker takes from outside: the clock, the uninitialised
memory a benchmark result lies over, and a spurious compare-exchange failure. -/
structure WorkerInput where
  now : Int64
  systemNow : UInt64
  uninit : CSeckillResult
  spurious : Bool
  deriving Inhabited

variable [DecidableEq κ]

def Worker.step (w : Worker) (sh : Shared κ) (i : ShardId) (inp : WorkerInput) :
    Option (Shared κ × Worker) :=
  match w.pc with
  | .batch =>
      (w.queue.next (.tryDequeueBatch kBatchSize)).map fun q =>
        (sh,{ w with queue := q, pc := .dequeue false })
  | .dequeue recheck =>
      match w.queue.consumer with
      | .ret [] => some (sh,{ w with pc := if recheck then .exited else .testRunning })
      | .ret items =>
          some (sh,{ w with pc := .setBusy (items.map ({ · with tsPopSpsc := inp.now })) })
      | _ => (w.queue.next .consume).map fun q => (sh,{ w with queue := q })
  | .testRunning =>
      if w.running then some (sh,{ w with pc := .batch })
      else
        (w.queue.next (.tryDequeueBatch kBatchSize)).map fun q =>
          (sh,{ w with queue := q, pc := .dequeue true })
  | .setBusy items =>
      some (sh,{ w with isProcessing := true, pc := .process items items.length })
  | .process [] count => some (sh,{ w with isProcessing := false, pc := .addCount count })
  | .process (req :: items) count => some (w.process sh req items count inp.uninit)
  | .flag req res items count =>
      let w' := if res.status = 1 then w.writeToWal req inp.systemNow else w
      some (sh.storeFlag w req.skuId,{ w' with pc := .notify res items count })
  | .notify res items count =>
      (sh.resultQueue.next (.enqueue (.worker i w.tries) res)).map fun q =>
        ({ sh with resultQueue := q },{ w with pc := .publish res items count })
  | .publish res items count =>
      match sh.resultQueue.pc (.worker i w.tries) with
      | .enqReturn _ (some _) =>
          some (sh,{ w with tries := w.tries + 1, pc := .process items count })
      | .enqReturn _ none =>
          some (sh,{ w with tries := w.tries + 1, pc := .notify res items count })
      | _ =>
          (sh.resultQueue.next (.step (.worker i w.tries) inp.spurious)).map fun q =>
            ({ sh with resultQueue := q },w)
  | .addCount count =>
      some (sh,{ w with
        processedCount := w.processedCount + count.toUInt64
        pc := .batch })
  | .exited => none

end Flashsale.Engine
