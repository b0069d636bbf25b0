import Flashsale.Worker
set_option autoImplicit false

/-!
One session of the engine, from `InitEngine` to the end of `StopEngine`: the
calls of the clients, a dispatcher and a worker for each shard. A step is the
next access of one thread to what the threads share.
-/

namespace Flashsale.Engine

/-- What a loop of enqueues does: a request or a batch tries each item once, the
warm-up and the barrier retry each item until it is accepted. -/
inductive Purpose where
  | once
  | warmUp
  | barrier
  deriving DecidableEq

/-- The callers of an ingress queue: the `k`-th attempt of a client's call to
enqueue, and the `k`-th `try_dequeue` of the dispatcher. -/
inductive Caller (κ : Type) where
  | client (purpose : Purpose) (c : κ) (k : Nat)
  | dispatcher (k : Nat)
  deriving DecidableEq

inductive Dispatcher where
  | loop (k : Nat)
  | dequeue (k : Nat)
  | push (k : Nat) (wreq : Request)
  | exited
  deriving DecidableEq

structure Shard (κ : Type) where
  queue : MpmcQueue.State Nat Request (Caller κ)
  dispatcher : Dispatcher
  worker : Worker

inductive Api where
  | enqueueRequest (creq : Request)
  | enqueueBatch (reqs : List Request)
  | warmUpEngine
  | waitEngineDrained
  | pollResult

/-- A loop of enqueues: the items left, the attempts made and those counted. -/
structure Push where
  purpose : Purpose
  todo : List (ShardId × Request)
  tries : Nat
  enqueued : Nat

def Push.caller {κ : Type} (p : Push) (c : κ) : Caller κ := .client p.purpose c p.tries

inductive Call where
  | idle
  | requestTestRunning (creq : Request)
  | batchTestRunning (reqs : List Request)
  | warmUpTestRunning
  | testFlag (creq : Request)
  | enqueue (p : Push)
  | enqueuing (p : Push)
  | count (p : Push)
  | enterDrain (tries : Nat)
  | resetBarrier (tries : Nat)
  | awaitBarrier
  | awaitRunning
  | leaveDrain
  | polling
  | ret (n : Nat)
  | retResult (res : Option CSeckillResult)

inductive Stop where
  | notCalled
  | joinDispatcher (i : Nat)
  | stopWorker (i : Nat)
  | joinWorker (i : Nat)
  | returned
  deriving DecidableEq

structure State (κ : Type) where
  running : Bool
  inside : Bool
  enqueueCount : UInt64
  dequeueCount : UInt64
  shared : Shared κ
  shards : ShardId → Shard κ
  calls : κ → Call
  stop : Stop

/-- `std::abs((long)sku_id) % kWorkerCount`; the least value, which has no
absolute value in the type, is even however it is taken. -/
def shardIdx (sku : Int64) : ShardId := Fin.ofNat kWorkerCount sku.toInt.natAbs

def zeroRequest : Request :=
  { skuId := 0, qty := 0, guestId := 0, requestId := 0
    tsIngress := 0, tsPopMpmc := 0, tsPushSpsc := 0, tsPopSpsc := 0 }

def Request.routed (req : Request) : ShardId × Request := (shardIdx req.skuId,req)

def kWarmUpCount : Nat := 20000

def warmUpRequest (i : Nat) : Request :=
  { zeroRequest with skuId := Int64.ofNat (i % kWorkerCount), qty := 1, guestId := i.toUInt64 }

def warmUpRequests : List (ShardId × Request) :=
  (List.range kWarmUpCount).map fun i => (shardIdx (warmUpRequest i).skuId,warmUpRequest i)

def barrierRequest : Request := { zeroRequest with requestId := barrierId }

def barrierRequests : List (ShardId × Request) :=
  (List.finRange kWorkerCount).map fun i => (i,barrierRequest)

def sessionFlags (sku : Int64) : Option Bool :=
  if sku = 123 ∨ sku = 456 ∨ sku = 999 ∨ sku = 888 then some false else none

variable {κ : Type} [DecidableEq κ]

def startShard : Shard κ where
  queue := (MpmcQueue.create (1024*4)).get rfl
  dispatcher := .loop 0
  worker := startWorker

/-- `InitEngine`; the counters it does not reset keep their values. -/
def initEngine (soldTotal enqueueCount dequeueCount barrierReached : UInt64) : State κ where
  running := true
  inside := false
  enqueueCount := enqueueCount
  dequeueCount := dequeueCount
  shared :=
    { resultQueue := (MpmcQueue.create (1024*16)).get rfl
      soldTotal := soldTotal
      soldOut := sessionFlags
      barrierReached := barrierReached }
  shards _ := startShard
  calls _ := .idle
  stop := .notCalled

def State.setShard (e : State κ) (i : ShardId) (s : Shard κ) : State κ :=
  { e with shards := Function.update e.shards i s }

def State.setCall (e : State κ) (c : κ) (p : Call) : State κ :=
  { e with calls := Function.update e.calls c p }

/-- The next step of `Dispatcher(i)`; `pop` and `push` are what its two clock reads return. -/
def State.dispatch (e : State κ) (i : ShardId) (pop push : Int64) (spurious : Bool) :
    Option (State κ) :=
  let s := e.shards i
  match s.dispatcher with
  | .loop k =>
      if e.running then
        (s.queue.next (.dequeue (.dispatcher k))).map fun q =>
          e.setShard i { s with queue := q, dispatcher := .dequeue k }
      else some (e.setShard i { s with dispatcher := .exited })
  | .dequeue k =>
      match s.queue.pc (.dispatcher k) with
      | .deqReturn none => some (e.setShard i { s with dispatcher := .loop (k+1) })
      | .deqReturn (some (_,req)) =>
          let wreq := { req with tsPopMpmc := pop, tsPushSpsc := push }
          (s.worker.queue.next (.tryEnqueue wreq)).map fun q =>
            { e with dequeueCount := e.dequeueCount + 1 }.setShard i
              { s with dispatcher := .push k wreq, worker := { s.worker with queue := q } }
      | _ =>
          (s.queue.next (.step (.dispatcher k) spurious)).map fun q =>
            e.setShard i { s with queue := q }
  | .push k wreq =>
      match s.worker.queue.producer with
      | .ret true => some (e.setShard i { s with dispatcher := .loop (k+1) })
      | .ret false =>
          (s.worker.queue.next (.tryEnqueue wreq)).map fun q =>
            e.setShard i { s with worker := { s.worker with queue := q } }
      | _ =>
          (s.worker.queue.next .produce).map fun q =>
            e.setShard i { s with worker := { s.worker with queue := q } }
  | .exited => none

def State.work (e : State κ) (i : ShardId) (inp : WorkerInput) : Option (State κ) :=
  let s := e.shards i
  (s.worker.step e.shared i inp).map fun (sh,w) =>
    { e with shared := sh }.setShard i { s with worker := w }

/-- A request and each item of a batch get the time of their attempt. -/
def Push.stamp (p : Push) (req : Request) (now : Int64) : Request :=
  if p.purpose = .once then { req with tsIngress := now } else req

def Push.after (p : Push) (ok : Bool) : Push :=
  { p with
    todo := if p.purpose = .once ∨ ok then p.todo.tail else p.todo
    tries := p.tries + 1
    enqueued := if ok then p.enqueued + 1 else p.enqueued }

def Push.done (p : Push) : Call :=
  match p.purpose with
  | .once => .ret p.enqueued
  | .warmUp => .enterDrain p.tries
  | .barrier => .awaitBarrier

def State.client (e : State κ) (c : κ) (now : Int64) (spurious : Bool) : Option (State κ) :=
  match e.calls c with
  | .requestTestRunning creq =>
      some (e.setCall c (if e.running then .testFlag creq else .ret 0))
  | .batchTestRunning reqs =>
      some (e.setCall c
        (if e.running then .enqueue ⟨.once,reqs.map (·.routed),0,0⟩ else .ret 0))
  | .warmUpTestRunning =>
      some (e.setCall c (if e.running then .enqueue ⟨.warmUp,warmUpRequests,0,0⟩ else .ret 0))
  | .testFlag creq =>
      some (e.setCall c
        (if e.shared.soldOut creq.skuId = some true then .ret 2
        else .enqueue ⟨.once,[creq.routed],0,0⟩))
  | .enqueue p =>
      match p.todo with
      | [] => some (e.setCall c p.done)
      | (i,req) :: _ =>
          let s := e.shards i
          (s.queue.next (.enqueue (p.caller c) (p.stamp req now))).map fun q =>
            (e.setShard i { s with queue := q }).setCall c (.enqueuing p)
  | .enqueuing p =>
      match p.todo with
      | [] => none
      | (i,_) :: _ =>
          let s := e.shards i
          match s.queue.pc (p.caller c) with
          | .enqReturn _ (some _) =>
              some (e.setCall c (if p.purpose = .once then .count p else .enqueue (p.after true)))
          | .enqReturn _ none => some (e.setCall c (.enqueue (p.after false)))
          | _ =>
              (s.queue.next (.step (p.caller c) spurious)).map fun q =>
                e.setShard i { s with queue := q }
  | .count p =>
      some ({ e with enqueueCount := e.enqueueCount + 1 }.setCall c (.enqueue (p.after true)))
  | .enterDrain tries =>
      some ({ e with inside := true }.setCall c (if e.inside then .ret 0 else .resetBarrier tries))
  | .resetBarrier tries =>
      some ({ e with shared := { e.shared with barrierReached := 0 } }.setCall c
        (.enqueue ⟨.barrier,barrierRequests,tries,0⟩))
  | .awaitBarrier =>
      some (e.setCall c (if e.shared.barrierReached ≥ 2 then .leaveDrain else .awaitRunning))
  | .awaitRunning => some (e.setCall c (if e.running then .awaitBarrier else .leaveDrain))
  | .leaveDrain => some ({ e with inside := false }.setCall c (.ret 0))
  | .polling =>
      match e.shared.resultQueue.pc (.poller c) with
      | .deqReturn won => some (e.setCall c (.retResult (won.map (·.2))))
      | _ =>
          (e.shared.resultQueue.next (.step (.poller c) spurious)).map fun q =>
            { e with shared := { e.shared with resultQueue := q } }
  | .idle | .ret _ | .retResult _ => none

def State.start (e : State κ) (c : κ) (f : Api) : Option (State κ) :=
  match e.calls c with
  | .idle =>
      match f with
      | .enqueueRequest creq => some (e.setCall c (.requestTestRunning creq))
      | .enqueueBatch reqs => some (e.setCall c (.batchTestRunning reqs))
      | .warmUpEngine => some (e.setCall c .warmUpTestRunning)
      | .waitEngineDrained => some (e.setCall c (.enterDrain 0))
      | .pollResult =>
          (e.shared.resultQueue.next (.dequeue (.poller c))).map fun q =>
            { e with shared := { e.shared with resultQueue := q } }.setCall c .polling
  | _ => none

def State.setRunning (e : State κ) (i : ShardId) (running : Bool) : State κ :=
  let s := e.shards i
  e.setShard i { s with worker := { s.worker with running := running } }

def State.stopEngine (e : State κ) : Option (State κ) :=
  match e.stop with
  | .notCalled => some { e with running := false, stop := .joinDispatcher 0 }
  | .joinDispatcher i =>
      if h : i < kWorkerCount then
        if (e.shards ⟨i,h⟩).dispatcher = .exited then
          some { e with stop := .joinDispatcher (i+1) }
        else none
      else some { e with stop := .stopWorker 0 }
  | .stopWorker i =>
      if h : i < kWorkerCount then
        some { e.setRunning ⟨i,h⟩ false with stop := .joinWorker i }
      else some { e with stop := .returned }
  | .joinWorker i =>
      if h : i < kWorkerCount then
        if (e.shards ⟨i,h⟩).worker.pc = .exited then
          some { e with stop := .stopWorker (i+1) }
        else none
      else none
  | .returned => none

inductive Act (κ : Type) where
  | start (c : κ) (f : Api)
  | client (c : κ) (now : Int64) (spurious : Bool)
  | dispatch (i : ShardId) (pop push : Int64) (spurious : Bool)
  | work (i : ShardId) (inp : WorkerInput)
  | stop

def State.next (e : State κ) : Act κ → Option (State κ)
  | .start c f => e.start c f
  | .client c now spurious => e.client c now spurious
  | .dispatch i pop push spurious => e.dispatch i pop push spurious
  | .work i inp => e.work i inp
  | .stop => e.stopEngine

def system : Transition.System (State κ) (Act κ) where
  init e := ∃ sold enq deq barrier, e = initEngine sold enq deq barrier
  next := State.next

end Flashsale.Engine
