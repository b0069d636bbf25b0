import Flashsale.MpmcQueue
set_option autoImplicit false

/-!
`main` of the order worker: producers that put intents with some repeated ids into
one `MpmcQueue`, and workers that take them out and write each id once. A step is
the next access of one thread to what the threads share.
-/

namespace Flashsale.OrderWorker

structure OrderIntent where
  requestId : UInt64
  userId : UInt64
  skuId : UInt32
  qty : UInt32
  enqueueTsNs : UInt64
  deriving DecidableEq, Inhabited

def makeRequestId (producerId : Nat) (seq : UInt64) : UInt64 :=
  (producerId.toUInt32.toUInt64 <<< 32) ||| (seq &&& 0xFFFFFFFF)

/-- The callers of the queue: the `k`-th enqueue of a producer, and the `k`-th
dequeue of a worker. -/
inductive Caller (p c : Nat) where
  | producer (i : Fin p) (k : Nat)
  | worker (w : Fin (c+1)) (k : Nat)
  deriving DecidableEq

inductive Producer where
  | loop (k : Nat)
  | enqueue (k : Nat) (intent : OrderIntent)
  | enqueuing (k : Nat)
  | count (k : Nat) (ok : Bool)
  | done
  deriving DecidableEq

/-- Where a worker stands, with its `k`-th dequeue; `recheck` is the one after
`producers_done` was true. -/
inductive Worker where
  | tryDequeue (k : Nat) (recheck : Bool)
  | dequeuing (k : Nat) (recheck : Bool)
  | testDone (k : Nat)
  | count (k : Nat) (intent : OrderIntent)
  | mark (k : Nat) (intent : OrderIntent)
  | dup (k : Nat)
  | write (k : Nat) (intent : OrderIntent)
  | exited
  deriving DecidableEq

inductive Main where
  | joinProducer (i : Nat)
  | storeDone
  | joinWorker (w : Nat)
  | ended
  deriving DecidableEq

/-- `written` is history: the intents passed to `simulate_mysql_write`. -/
structure State (p c : Nat) where
  queue : MpmcQueue.State Nat OrderIntent (Caller p c)
  seen : List UInt64
  producedTotal : UInt64
  acceptedTotal : UInt64
  rejectedFull : UInt64
  consumedTotal : UInt64
  idempotentDups : UInt64
  producersDone : Bool
  producers : Fin p → Producer
  workers : Fin (c+1) → Worker
  main : Main
  written : List OrderIntent

def start {p c : Nat} (queue : MpmcQueue.State Nat OrderIntent (Caller p c)) : State p c where
  queue := queue
  seen := []
  producedTotal := 0
  acceptedTotal := 0
  rejectedFull := 0
  consumedTotal := 0
  idempotentDups := 0
  producersDone := false
  producers _ := .loop 0
  workers _ := .tryDequeue 0 false
  main := .joinProducer 0
  written := []

/-- What a turn of a producer takes from outside: whether the random number is below
`DUP_RATE`, the random SKU and the clock. -/
structure Draw where
  dup : Bool
  skuId : UInt32
  now : UInt64

/-- The sequence number of turn `k`; a repeated one is that of 100 turns before. -/
def baseSeq (k : Nat) (dup : Bool) : Nat := if k > 100 ∧ dup then k - 100 else k

def intentOf (i k : Nat) (draw : Draw) : OrderIntent where
  requestId := makeRequestId i (.ofNat (baseSeq k draw.dup))
  userId := (i.toUInt64 <<< 20) ^^^ k.toUInt64
  skuId := draw.skuId
  qty := 1
  enqueueTsNs := draw.now

/-- `IdempotencyTable::try_mark`, which holds the mutex throughout. -/
def tryMark (seen : List UInt64) (requestId : UInt64) : Bool × List UInt64 :=
  if requestId ∈ seen then (false,seen) else (true,requestId :: seen)

variable {p c : Nat}

def State.setProducer (s : State p c) (i : Fin p) (pc : Producer) : State p c :=
  { s with producers := Function.update s.producers i pc }

def State.setWorker (s : State p c) (w : Fin (c+1)) (pc : Worker) : State p c :=
  { s with workers := Function.update s.workers w pc }

def State.produce (perProducer : Nat) (s : State p c) (i : Fin p) (draw : Draw) (spurious : Bool) :
    Option (State p c) :=
  match s.producers i with
  | .loop k =>
      if k < perProducer then
        some ({ s with producedTotal := s.producedTotal + 1 }.setProducer i
          (.enqueue k (intentOf i k draw)))
      else some (s.setProducer i .done)
  | .enqueue k intent =>
      (s.queue.next (.enqueue (.producer i k) intent)).map fun q =>
        { s with queue := q }.setProducer i (.enqueuing k)
  | .enqueuing k =>
      match s.queue.pc (.producer i k) with
      | .enqReturn _ won => some (s.setProducer i (.count k won.isSome))
      | _ =>
          (s.queue.next (.step (.producer i k) spurious)).map fun q => { s with queue := q }
  | .count k ok =>
      if ok then
        some ({ s with acceptedTotal := s.acceptedTotal + 1 }.setProducer i (.loop (k+1)))
      else some ({ s with rejectedFull := s.rejectedFull + 1 }.setProducer i (.loop (k+1)))
  | .done => none

def State.work (s : State p c) (w : Fin (c+1)) (spurious : Bool) : Option (State p c) :=
  match s.workers w with
  | .tryDequeue k recheck =>
      (s.queue.next (.dequeue (.worker w k))).map fun q =>
        { s with queue := q }.setWorker w (.dequeuing k recheck)
  | .dequeuing k recheck =>
      match s.queue.pc (.worker w k) with
      | .deqReturn (some (_,intent)) => some (s.setWorker w (.count k intent))
      | .deqReturn none =>
          some (s.setWorker w (if recheck then .exited else .testDone (k+1)))
      | _ => (s.queue.next (.step (.worker w k) spurious)).map fun q => { s with queue := q }
  | .testDone k => some (s.setWorker w (.tryDequeue k s.producersDone))
  | .count k intent =>
      some ({ s with consumedTotal := s.consumedTotal + 1 }.setWorker w (.mark k intent))
  | .mark k intent =>
      let (inserted,seen) := tryMark s.seen intent.requestId
      some ({ s with seen := seen }.setWorker w (if inserted then .write k intent else .dup k))
  | .dup k =>
      some ({ s with idempotentDups := s.idempotentDups + 1 }.setWorker w (.tryDequeue (k+1) false))
  | .write k intent =>
      some ({ s with written := s.written ++ [intent] }.setWorker w (.tryDequeue (k+1) false))
  | .exited => none

def State.mainStep (s : State p c) : Option (State p c) :=
  match s.main with
  | .joinProducer i =>
      if h : i < p then
        if s.producers ⟨i,h⟩ = .done then some { s with main := .joinProducer (i+1) } else none
      else some { s with main := .storeDone }
  | .storeDone => some { s with producersDone := true, main := .joinWorker 0 }
  | .joinWorker w =>
      if h : w < c+1 then
        if s.workers ⟨w,h⟩ = .exited then some { s with main := .joinWorker (w+1) } else none
      else some { s with main := .ended }
  | .ended => none

inductive Act (p c : Nat) where
  | produce (i : Fin p) (draw : Draw) (spurious : Bool)
  | work (w : Fin (c+1)) (spurious : Bool)
  | main

def State.next (perProducer : Nat) (s : State p c) : Act p c → Option (State p c)
  | .produce i draw spurious => s.produce perProducer i draw spurious
  | .work w spurious => s.work w spurious
  | .main => s.mainStep

def system (p c perProducer queueCap : Nat) : Transition.System (State p c) (Act p c) where
  init s := ∃ q, MpmcQueue.create queueCap = some q ∧ s = start q
  next := State.next perProducer

end Flashsale.OrderWorker
