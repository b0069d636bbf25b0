import Flashsale.AbstractEngine
import Flashsale.Gate
set_option autoImplicit false

/-!
The backend processes that share one Redis and one database: `EnqueueHandler`,
the result workers, `dbWorker`, `cleanupWorker` and the sweeper of each. A step
is the next call or channel operation of one goroutine.
-/

namespace Flashsale.Backend
open Cache Engine

structure DeadLetter where
  skuId : Int64
  userId : UInt64
  qty : Int64
  time : Int
  deriving DecidableEq

inductive Command where
  | deduct (m : Member) (timestamp : Int)
  | rollback (m : Member)
  | sadd (skuId : Int64)
  | rpush (entry : DeadLetter)
  | setnx (reqId : UInt64)
  | zrem (skuId : Int64) (ms : List Member)
  deriving DecidableEq

structure Redis where
  gates : Int64 → Gate
  skus : Finset Int64
  deadLetter : List DeadLetter
  done : Finset UInt64

def Redis.setGate (r : Redis) (skuId : Int64) (g : Gate) : Redis :=
  { r with gates := Function.update r.gates skuId g }

/-- The reply, which is an error where there is none, and what is written. -/
def Redis.run (r : Redis) : Command → Option Int × Redis
  | .deduct m timestamp =>
      let reply := (r.gates m.skuId).deduct m timestamp
      (reply.1,r.setGate m.skuId reply.2)
  | .rollback m =>
      let reply := (r.gates m.skuId).rollback m
      (reply.1,r.setGate m.skuId reply.2)
  | .sadd skuId =>
      (some (if skuId ∈ r.skus then 0 else 1),{ r with skus := insert skuId r.skus })
  | .rpush entry =>
      (some (r.deadLetter.length + 1),{ r with deadLetter := r.deadLetter ++ [entry] })
  | .setnx reqId =>
      (some (if reqId ∈ r.done then 0 else 1),{ r with done := insert reqId r.done })
  | .zrem skuId ms =>
      (some (ms.dedup.countP (· ∈ (r.gates skuId).members)),
        r.setGate skuId ((r.gates skuId).zrem ms))

/-- How a call ends: answered, run with its answer lost, or not run. -/
inductive Net where
  | answered
  | lost
  | failed
  deriving DecidableEq

def Net.sent (net : Net) (c : Command) : Option Command :=
  if net = .failed then none else some c

def Redis.call (r : Redis) (c : Command) : Net → Option Int × Redis
  | .answered => r.run c
  | .lost => (none,(r.run c).2)
  | .failed => (none,r)

def maxRetries : Nat := 3

/-- A call of `RollbackInventory`, after `attempt` attempts without an answer. -/
structure Rollback where
  member : Member
  attempt : Nat
  deriving DecidableEq

/-- `time.Now().Unix()` of a time in microseconds. -/
def unix (now : Int) : Int := now/1000000

def Rollback.entry (r : Rollback) (now : Int) : DeadLetter :=
  { skuId := r.member.skuId, userId := r.member.userId, qty := r.member.qty, time := unix now }

def Rollback.step (r : Rollback) (redis : Redis) (net : Net) (now : Int) :
    Option Rollback × Redis :=
  if r.attempt < maxRetries then
    match redis.call (.rollback r.member) net with
    | (some _,redis) => (none,redis)
    | (none,redis) => (some { r with attempt := r.attempt + 1 },redis)
  else (none,(redis.call (.rpush (r.entry now)) net).2)

def Rollback.command (r : Rollback) (net : Net) (now : Int) : Option Command :=
  net.sent (if r.attempt < maxRetries then .rollback r.member else .rpush (r.entry now))

inductive Response where
  | queued (requestId : UInt64)
  | error (status : Nat) (text : String)
  deriving DecidableEq

inductive Handler where
  | check (m : Member)
  | deduct (m : Member)
  | register (m : Member)
  | enqueue (m : Member)
  | rollback (r : Rollback) (response : Response)
  deriving DecidableEq

structure Order where
  id : UInt64
  skuId : Int64
  guestId : UInt64
  qty : Int32
  status : Int64
  deriving DecidableEq

structure CleanupTask where
  skuId : Int64
  guestId : UInt64
  qty : Int64
  requestId : UInt64
  status : Int32
  deriving DecidableEq

def CleanupTask.member (t : CleanupTask) : Member :=
  { skuId := t.skuId, userId := t.guestId, qty := t.qty, reqId := t.requestId }

inductive ResultWorker where
  | poll
  | persist (order : Order) (task : CleanupTask)
  | cleanup (task : CleanupTask)
  deriving DecidableEq

/-- Where `StartSweeper` stands: `rest` are the SKUs still to visit, `ms` the
stale members of the current one. -/
inductive Sweeper where
  | tick
  | skus (rest : List Int64)
  | members (ms : List Member) (rest : List Int64)
  | ack (m : Member) (ms : List Member) (rest : List Int64)
  | undo (r : Rollback) (ms : List Member) (rest : List Int64)
  deriving DecidableEq

/-- One process. `pipeline` are the commands `pipe.Exec` has still to run. -/
structure Instance where
  redisFailureCount : UInt32
  redisLastFailure : Int
  acceptedRequests : UInt64
  resultsReceived : UInt64
  resultsSoldOut : UInt64
  dbCommitted : UInt64
  handlers : Multiset Handler
  engine : Abstract
  workers : Multiset ResultWorker
  orderChan : List Order
  dbBatch : List Order
  cleanupChan : List CleanupTask
  cleanupBatch : List CleanupTask
  pipeline : Option (List Command)
  rollbacks : Multiset Rollback
  sweeper : Sweeper

def startConsumer : Instance where
  redisFailureCount := 0
  redisLastFailure := 0
  acceptedRequests := 0
  resultsReceived := 0
  resultsSoldOut := 0
  dbCommitted := 0
  handlers := 0
  engine := .empty
  workers := Multiset.replicate 8 .poll
  orderChan := []
  dbBatch := []
  cleanupChan := []
  cleanupBatch := []
  pipeline := none
  rollbacks := 0
  sweeper := .tick

/-- What the processes share. `sold` and `rejected` are the engines' decisions,
`acked` the members the cleanup removed and `swept` those a sweeper rolled back:
history, which no step reads. -/
structure World where
  redis : Redis
  orders : List Order
  answers : List (Member × Response)
  sold : Multiset Member
  rejected : Multiset Member
  acked : Multiset Member
  swept : Multiset Member

def redisFailureThreshold : UInt32 := 5

def redisCircuitDuration : Int := 5

def systemBusy : Response := .error 503 "System Busy (Storage Layer)"

def systemError : Response := .error 500 "System Error"

def soldOut : Response := .error 409 "Sold out"

def duplicatePurchase : Response := .error 409 "Duplicate purchase"

def invalidSku : Response := .error 400 "Invalid SKU or System Not Ready"

def queueFull : Response := .error 503 "Queue full"

def World.respond (w : World) (m : Member) (r : Response) : World :=
  { w with answers := w.answers ++ [(m,r)] }

def creqOf (m : Member) : Payload := (m.skuId,m.qty.toInt32,m.userId,m.reqId)

def memberOf (r : Payload) : Member :=
  { skuId := r.1, userId := r.2.2.1, qty := r.2.1.toInt64, reqId := r.2.2.2 }

def Instance.goto (x : Instance) (h : Handler) : Instance :=
  { x with handlers := h ::ₘ x.handlers }

/-- The next step of `EnqueueHandler`; `code` is what `EnqueueRequest` returns. -/
def Instance.handle (x : Instance) (w : World) (h : Handler) (net : Net) (code : Int32)
    (now : Int) : World × Instance :=
  match h with
  | .check m =>
      if x.redisFailureCount > redisFailureThreshold ∧
          unix now - x.redisLastFailure < redisCircuitDuration then (w.respond m systemBusy,x)
      else (w,x.goto (.deduct m))
  | .deduct m =>
      let reply := w.redis.call (.deduct m now) net
      let w := { w with redis := reply.2 }
      match reply.1 with
      | none =>
          (w.respond m systemError,{ x with
            redisFailureCount := x.redisFailureCount + 1
            redisLastFailure := unix now })
      | some status =>
          let x := { x with redisFailureCount := 0 }
          if status = 0 then (w.respond m soldOut,x)
          else if status = -1 then (w.respond m duplicatePurchase,x)
          else if status = -2 then (w.respond m invalidSku,x)
          else (w,x.goto (.register m))
  | .register m =>
      ({ w with redis := (w.redis.call (.sadd m.skuId) net).2 },x.goto (.enqueue m))
  | .enqueue m =>
      if code = 1 then
        (w.respond m (.queued m.reqId),{ x with
          engine := x.engine.accept (creqOf m)
          acceptedRequests := x.acceptedRequests + 1 })
      else
        ({ w with rejected := m ::ₘ w.rejected },
          x.goto (.rollback ⟨m,0⟩ (if code = 2 then soldOut else queueFull)))
  | .rollback r response =>
      let step := r.step w.redis net now
      let w := { w with redis := step.2 }
      match step.1 with
      | none => (w.respond r.member response,x)
      | some r => (w,x.goto (.rollback r response))

def Instance.process (x : Instance) (w : World) (r : Payload) (out : Option CSeckillResult) :
    Option (World × Instance) :=
  (x.engine.process r out).map fun e =>
    (match out with
      | none => w
      | some res =>
          if r.requestId > benchmarkLimit then w
          else if res.status = 1 then { w with sold := memberOf r ::ₘ w.sold }
          else { w with rejected := memberOf r ::ₘ w.rejected },
      { x with engine := e })

def orderOf (res : CSeckillResult) : Order :=
  { id := res.requestId, skuId := res.skuId, guestId := res.guestId, qty := res.qty, status := 1 }

def taskOf (res : CSeckillResult) : CleanupTask :=
  { skuId := res.skuId
    guestId := res.guestId
    qty := res.qty.toInt64
    requestId := res.requestId
    status := res.status }

def received (res : CSeckillResult) : ResultWorker :=
  if res.status = 1 then
    if res.requestId > benchmarkLimit then .poll else .persist (orderOf res) (taskOf res)
  else .cleanup (taskOf res)

def Instance.poll (x : Instance) (res : CSeckillResult) : Option Instance :=
  if ResultWorker.poll ∈ x.workers then
    (x.engine.poll res).map fun e =>
      { x with
        engine := e
        resultsReceived := x.resultsReceived + 1
        resultsSoldOut := if res.status = 2 then x.resultsSoldOut + 1 else x.resultsSoldOut
        workers := received res ::ₘ x.workers.erase .poll }
  else none

def chanSize : Nat := 10000

def Instance.push (x : Instance) (wk : ResultWorker) : Option Instance :=
  if wk ∈ x.workers then
    match wk with
    | .poll => none
    | .persist order task =>
        if x.orderChan.length < chanSize then
          some { x with
            orderChan := x.orderChan ++ [order]
            workers := .cleanup task ::ₘ x.workers.erase (.persist order task) }
        else none
    | .cleanup task =>
        if x.cleanupChan.length < chanSize then
          some { x with
            cleanupChan := x.cleanupChan ++ [task]
            workers := .poll ::ₘ x.workers.erase (.cleanup task) }
        else none
  else none

def dbBatchSize : Nat := 1000

def Instance.receiveOrder (x : Instance) : Option Instance :=
  match x.orderChan with
  | [] => none
  | order :: rest =>
      if x.dbBatch.length < dbBatchSize then
        some { x with orderChan := rest, dbBatch := x.dbBatch ++ [order] }
      else none

/-- `OnConflict{DoNothing: true}` on the primary key. -/
def insertOrder (orders : List Order) (order : Order) : List Order :=
  if orders.any (·.id = order.id) then orders else orders ++ [order]

def insertOrders (orders batch : List Order) : List Order := batch.foldl insertOrder orders

/-- `dbWorker`'s flush; the error of `Create` is not looked at. -/
def Instance.flushOrders (x : Instance) (w : World) (ok : Bool) : Option (World × Instance) :=
  match x.dbBatch with
  | [] => none
  | batch =>
      some ({ w with orders := if ok then insertOrders w.orders batch else w.orders },{ x with
        dbCommitted := x.dbCommitted + batch.length.toUInt64
        dbBatch := [] })

def cleanupBatchSize : Nat := 500

def Instance.receiveTask (x : Instance) : Option Instance :=
  match x.pipeline,x.cleanupChan with
  | none,task :: rest =>
      if x.cleanupBatch.length < cleanupBatchSize then
        some { x with cleanupChan := rest, cleanupBatch := x.cleanupBatch ++ [task] }
      else none
  | _,_ => none

def successes (batch : List CleanupTask) : List CleanupTask := batch.filter (·.status = 1)

def failures (batch : List CleanupTask) : List CleanupTask := batch.filter (·.status ≠ 1)

def membersBySku (batch : List CleanupTask) (skuId : Int64) : List Member :=
  ((successes batch).filter (·.skuId = skuId)).map CleanupTask.member

def batchSkus (batch : List CleanupTask) : List Int64 :=
  ((successes batch).map (·.skuId)).dedup

/-- The commands of the pipeline when the map is iterated in the order `skus`. -/
def pipelineOf (batch : List CleanupTask) (skus : List Int64) : List Command :=
  (successes batch).map (fun t => .setnx t.requestId) ++
    skus.map fun skuId => .zrem skuId (membersBySku batch skuId)

/-- `cleanupWorker`'s flush up to `pipe.Exec`, the rollbacks in goroutines of their own. -/
def Instance.flushTasks (x : Instance) (skus : List Int64) : Option Instance :=
  match x.pipeline,x.cleanupBatch with
  | none,task :: tasks =>
      let batch := task :: tasks
      if skus.Perm (batchSkus batch) then
        some { x with
          pipeline := some (pipelineOf batch skus)
          rollbacks :=
            (failures batch : Multiset CleanupTask).map (fun t => ⟨t.member,0⟩) + x.rollbacks
          cleanupBatch := [] }
      else none
  | _,_ => none

def Command.acks : Command → Multiset Member
  | .zrem _ ms => ms
  | _ => 0

/-- The server runs the next command of the pipeline, or it never arrives. -/
def Instance.pipe (x : Instance) (w : World) (net : Net) : Option (World × Instance) :=
  match x.pipeline with
  | none => none
  | some [] => some (w,{ x with pipeline := none })
  | some (c :: cs) =>
      let x := { x with pipeline := some cs }
      if net = .failed then some (w,x)
      else some ({ w with redis := (w.redis.run c).2, acked := c.acks + w.acked },x)

def Instance.undo (x : Instance) (w : World) (r : Rollback) (net : Net) (now : Int) :
    Option (World × Instance) :=
  if r ∈ x.rollbacks then
    let step := r.step w.redis net now
    let rest := x.rollbacks.erase r
    some ({ w with redis := step.2 },{ x with rollbacks := step.1.elim rest (· ::ₘ rest) })
  else none

/-- Members older than this are stale, in seconds. -/
def staleTimeout : Int := 30

def staleLimit (now : Int) : Int := (unix now - staleTimeout)*1000000

/-- The rollback takes effect when this step of it is sent. -/
def Rollback.effective (r : Rollback) (redis : Redis) (net : Net) : Bool :=
  r.attempt < maxRetries ∧ net ≠ .failed ∧
    ((redis.gates r.member.skuId).rollback r.member).1 = some 1

def Instance.sweep (x : Instance) (w : World) (net : Net) (now : Int) (skus : List Int64)
    (found : List Member) : Option (World × Instance) :=
  match x.sweeper with
  | .tick =>
      if net = .answered then
        if skus.Nodup ∧ skus.toFinset = w.redis.skus then
          some (w,{ x with sweeper := .skus skus })
        else none
      else some (w,x)
  | .skus [] => some (w,{ x with sweeper := .tick })
  | .skus (skuId :: rest) =>
      if net = .answered then
        if found.Perm ((w.redis.gates skuId).stale (staleLimit now)) then
          some (w,{ x with sweeper := .members found rest })
        else none
      else some (w,{ x with sweeper := .skus rest })
  | .members [] rest => some (w,{ x with sweeper := .skus rest })
  | .members (m :: ms) rest =>
      if net = .answered then
        if w.orders.any (·.id = m.reqId) then some (w,{ x with sweeper := .ack m ms rest })
        else some (w,{ x with sweeper := .undo ⟨m,0⟩ ms rest })
      else some (w,{ x with sweeper := .members ms rest })
  | .ack m ms rest =>
      some ({ w with redis := (w.redis.call (.zrem m.skuId [m]) net).2 },
        { x with sweeper := .members ms rest })
  | .undo r ms rest =>
      let step := r.step w.redis net now
      some ({ w with
          redis := step.2
          swept := if r.effective w.redis net then r.member ::ₘ w.swept else w.swept },
        { x with sweeper := step.1.elim (.members ms rest) (.undo · ms rest) })

inductive Act where
  | receive (m : Member)
  | handle (h : Handler) (net : Net) (code : Int32) (now : Int)
  | process (r : Payload) (out : Option CSeckillResult)
  | poll (res : CSeckillResult)
  | push (wk : ResultWorker)
  | receiveOrder
  | flushOrders (ok : Bool)
  | receiveTask
  | flushTasks (skus : List Int64)
  | pipe (net : Net)
  | undo (r : Rollback) (net : Net) (now : Int)
  | sweep (net : Net) (now : Int) (skus : List Int64) (found : List Member)
  | crash

/-- A step of one process; none is left after a crash. -/
def Instance.next (x : Instance) (w : World) : Act → Option (World × Option Instance)
  | .receive m => some (w,some (x.goto (.check m)))
  | .handle h net code now =>
      if h ∈ x.handlers then
        let step := { x with handlers := x.handlers.erase h }.handle w h net code now
        some (step.1,some step.2)
      else none
  | .process r out => (x.process w r out).map fun s => (s.1,some s.2)
  | .poll res => (x.poll res).map fun x => (w,some x)
  | .push wk => (x.push wk).map fun x => (w,some x)
  | .receiveOrder => x.receiveOrder.map fun x => (w,some x)
  | .flushOrders ok => (x.flushOrders w ok).map fun s => (s.1,some s.2)
  | .receiveTask => x.receiveTask.map fun x => (w,some x)
  | .flushTasks skus => (x.flushTasks skus).map fun x => (w,some x)
  | .pipe net => (x.pipe w net).map fun s => (s.1,some s.2)
  | .undo r net now => (x.undo w r net now).map fun s => (s.1,some s.2)
  | .sweep net now skus found => (x.sweep w net now skus found).map fun s => (s.1,some s.2)
  | .crash => some (w,none)

structure State (ι : Type) where
  world : World
  instances : ι → Option Instance

variable {ι : Type} [DecidableEq ι]

def State.next (s : State ι) (a : ι × Act) : Option (State ι) :=
  match s.instances a.1 with
  | none => none
  | some x =>
      (x.next s.world a.2).map fun step =>
        { world := step.1, instances := Function.update s.instances a.1 step.2 }

/-- The SKUs warmed up with `stock`, over the rows a database already has. -/
def start (stock : Int64 → Option Int64) (skus : Finset Int64) (orders : List Order) : State ι where
  world :=
    { redis :=
        { gates := fun skuId => (stock skuId).elim Gate.empty Gate.warmUp
          skus := skus
          deadLetter := []
          done := ∅ }
      orders := orders
      answers := []
      sold := 0
      rejected := 0
      acked := 0
      swept := 0 }
  instances _ := some startConsumer

def system : Transition.System (State ι) (ι × Act) where
  init s := ∃ stock skus orders, s = start stock skus orders
  next := State.next

def sale : Member := { skuId := 999, userId := 7, qty := 1, reqId := 5 }

def saleResult : CSeckillResult :=
  { (default : CSeckillResult) with
    skuId := 999, qty := 1, guestId := 7, requestId := 5, status := 1 }

/-- `EnqueueHandler` to its answer, `Process` and a result worker. -/
def saleRun : List Act :=
  [.receive sale,.handle (.check sale) .answered 0 0,.handle (.deduct sale) .answered 0 0,
    .handle (.register sale) .answered 0 0,.handle (.enqueue sale) .answered 1 0,
    .process (creqOf sale) (some saleResult),.poll saleResult,
    .push (.persist (orderOf saleResult) (taskOf saleResult)),
    .push (.cleanup (taskOf saleResult)),.receiveOrder,.receiveTask]

def cleanupRun : List Act := [.flushTasks [999],.pipe .answered,.pipe .answered,.pipe .answered]

def warmStock (skuId : Int64) : Option Int64 := if skuId = 999 then some 100 else none

def warmStart : State ι := start warmStock ∅ []

example : (system.exec (warmStart : State Unit) ((saleRun ++ cleanupRun).map ((),·))).isSome := by
  decide +kernel

end Flashsale.Backend
