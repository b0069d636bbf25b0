import Flashsale.CoreConsumer
import Flashsale.SpscFrame
set_option autoImplicit false

/-!
`main` of the core consumer: the pull loop, and a queue with its worker for each
route. A step is the next access of one thread to what the threads share.
-/

namespace Flashsale.CoreConsumer

abbrev kWorkers : Nat := 4

def kQueueCap : Nat := 2^14

def kMaxBatch : Nat := 256

instance kWorkers_neZero : NeZero kWorkers := ⟨by decide⟩

abbrev WorkerId := Fin kWorkers

/-- `OrderIntent in{}`. -/
def zeroIntent : OrderIntent := ⟨0,0,0,0,0⟩

instance : Inhabited OrderIntent := ⟨zeroIntent⟩

/-- A client that messages are pulled from: `fetch_batch` fails, or leaves the texts of a batch. -/
structure PullClient (σ : Type) where
  start : σ
  fetchBatch : σ → Nat → Option (List (List Char)) × σ

/-- The stub. -/
def natsPullClient : PullClient Unit where
  start := ()
  fetchBatch s _ := (none,s)

def mockPullClient : PullClient UInt64 where
  start := 0
  fetchBatch seq maxMsgs := let (batch,seq) := fetchBatch seq maxMsgs; (some batch,seq)

def routeIndex (o : OrderIntent) : WorkerId :=
  Fin.ofNat kWorkers (if o.userId ≠ 0 then o.userId else o.requestId).toNat

/-- Where a worker stands; `drain` is the loop after `running` was false. -/
inductive Loop where
  | tryDequeue (drain : Bool)
  | dequeuing (drain : Bool)
  | process (drain : Bool) (intent : OrderIntent)
  | testRunning
  | exited
  deriving DecidableEq

/-- `processed` is history: the intents passed to `process_order`. -/
structure Worker where
  queue : SpscQueue.State OrderIntent
  pc : Loop
  processed : List OrderIntent

inductive Main where
  | testRunning
  | fetch
  | settle (batch : List (List Char))
  | enqueuing (msg : List Char) (intent : OrderIntent) (batch : List (List Char))
  | clearRunning
  | join (i : Nat)
  | returned

inductive Verdict where
  | ack
  | term
  deriving DecidableEq

/-- `fetched` and `verdicts` are history: the messages pulled, and those settled. -/
structure State (σ : Type) where
  client : σ
  running : Bool
  main : Main
  workers : WorkerId → Worker
  fetched : List (List Char)
  verdicts : List (List Char × Verdict)

variable {σ : Type}

def startWorker : Worker where
  queue := SpscQueue.create kQueueCap
  pc := .tryDequeue false
  processed := []

def start (client : PullClient σ) : State σ where
  client := client.start
  running := true
  main := .testRunning
  workers _ := startWorker
  fetched := []
  verdicts := []

def State.setQueue (s : State σ) (i : WorkerId) (q : SpscQueue.State OrderIntent) : State σ :=
  { s with workers := Function.update s.workers i { s.workers i with queue := q } }

def State.settle (s : State σ) (msg : List Char) (v : Verdict) (batch : List (List Char)) : State σ :=
  { s with main := .settle batch, verdicts := s.verdicts ++ [(msg,v)] }

def State.pull (client : PullClient σ) (s : State σ) : Option (State σ) :=
  match s.main with
  | .testRunning => some { s with main := if s.running then .fetch else .clearRunning }
  | .fetch =>
      match client.fetchBatch s.client kMaxBatch with
      | (none,c) => some { s with client := c, main := .testRunning }
      | (some batch,c) =>
          some { s with client := c, main := .settle batch, fetched := s.fetched ++ batch }
  | .settle [] => some { s with main := .testRunning }
  | .settle (msg :: batch) =>
      match parseIntent msg zeroIntent with
      | (false,_) => some (s.settle msg .term batch)
      | (true,intent) =>
          let i := routeIndex intent
          ((s.workers i).queue.next (.tryEnqueue intent)).map fun q =>
            { s.setQueue i q with main := .enqueuing msg intent batch }
  | .enqueuing msg intent batch =>
      let i := routeIndex intent
      match (s.workers i).queue.producer with
      | .ret ok => some (s.settle msg (if ok then .ack else .term) batch)
      | _ => ((s.workers i).queue.next .produce).map (s.setQueue i)
  | .clearRunning => some { s with running := false, main := .join 0 }
  | .join i =>
      if h : i < kWorkers then
        if (s.workers ⟨i,h⟩).pc = .exited then some { s with main := .join (i+1) } else none
      else some { s with main := .returned }
  | .returned => none

def Worker.step (w : Worker) (running : Bool) : Option Worker :=
  match w.pc with
  | .tryDequeue drain =>
      (w.queue.next .tryDequeue).map fun q => { w with queue := q, pc := .dequeuing drain }
  | .dequeuing drain =>
      match w.queue.consumer with
      | .ret (intent :: _) => some { w with pc := .process drain intent }
      | .ret [] => some { w with pc := if drain then .exited else .testRunning }
      | _ => (w.queue.next .consume).map fun q => { w with queue := q }
  | .process drain intent =>
      some { w with pc := .tryDequeue drain, processed := w.processed ++ [intent] }
  | .testRunning => some { w with pc := .tryDequeue !running }
  | .exited => none

inductive Act where
  | pull
  | work (i : WorkerId)
  deriving DecidableEq

def State.next (client : PullClient σ) (s : State σ) : Act → Option (State σ)
  | .pull => s.pull client
  | .work i =>
      ((s.workers i).step s.running).map fun w =>
        { s with workers := Function.update s.workers i w }

def system (client : PullClient σ) : Transition.System (State σ) Act where
  init s := s = start client
  next := State.next client

def intentOf (msg : List Char) : Option OrderIntent :=
  match parseIntent msg zeroIntent with
  | (true,intent) => some intent
  | (false,_) => none

def State.acked (s : State σ) : List OrderIntent :=
  s.verdicts.filterMap fun (msg,v) => if v = .ack then intentOf msg else none

/-- The intent that a queue has accepted before its message is acknowledged. -/
def State.inFlight (s : State σ) : List OrderIntent :=
  match s.main with
  | .enqueuing _ intent _ =>
      if (s.workers (routeIndex intent)).queue.producer = .ret true then [intent] else []
  | _ => []

def Main.pending : Main → List (List Char)
  | .settle batch => batch
  | .enqueuing msg _ batch => msg :: batch
  | _ => []

def Worker.inHand (w : Worker) : List OrderIntent :=
  match w.pc with
  | .dequeuing _ => w.queue.returned
  | .process _ intent => [intent]
  | _ => []

end Flashsale.CoreConsumer
