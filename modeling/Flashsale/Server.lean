import Flashsale.Backend
import Flashsale.Strconv
set_option autoImplicit false

/-!
One process over its own engine, from the HTTP request to the end of the
rollbacks. Redis answers every command, so the circuit breaker stays closed; how
long a result stays in the channels before the cleanup rolls it back is left open.
-/

namespace Flashsale.Server
open Cache Engine Backend Strconv

/-- What `EnqueueHandler` reads: two headers, the body, and the random numbers it
takes where a header is missing. -/
structure HttpRequest where
  guestId : List Char
  requestId : List Char
  skuId : Int64
  qty : Int64
  guestRandom : UInt64
  requestRandom : UInt64

def int63 (random : UInt64) : UInt64 := random &&& 0x7FFFFFFFFFFFFFFF

/-- The id a header gives; `GetHeader` returns the empty text for a missing one,
and the error of `ParseUint` is not looked at. -/
def headerId (header : List Char) (random : UInt64) : UInt64 :=
  if header = [] then int63 random else (parseUint header).1

def HttpRequest.member (http : HttpRequest) : Member where
  skuId := http.skuId
  userId := headerId http.guestId http.guestRandom
  qty := http.qty
  reqId := headerId http.requestId http.requestRandom

def creq (m : Member) : Request :=
  { zeroRequest with
    skuId := m.skuId, qty := m.qty.toInt32, guestId := m.userId, requestId := m.reqId }

/-- `handlers` have deducted their request, `enqueuing` are in `EnqueueRequest`,
`refused` are about to call `RollbackInventory`, as are the `tasks` of the
cleanup; `polling` are the calls of the result workers. The last fields are
history: no step reads them. -/
structure State (κ : Type) where
  engine : Engine.State κ
  gates : Int64 → Gate
  acceptedRequests : UInt64
  resultsReceived : UInt64
  resultsSoldOut : UInt64
  answers : List (Member × Response)
  handlers : Multiset Member
  enqueuing : Multiset (κ × Member)
  refused : Multiset (Member × Response)
  polling : Multiset κ
  tasks : Multiset CleanupTask
  deducted : Multiset Member
  accepted : Multiset (κ × Member)
  rejected : Multiset (κ × Member)
  received : Multiset (κ × CSeckillResult)
  undone : Multiset Member
  cleaned : Multiset CleanupTask

variable {κ : Type}

def State.respond (s : State κ) (m : Member) (r : Response) : State κ :=
  { s with answers := s.answers ++ [(m,r)] }

def State.setGate (s : State κ) (skuId : Int64) (g : Gate) : State κ :=
  { s with gates := Function.update s.gates skuId g }

def State.receive (s : State κ) (m : Member) (now : Int) : State κ :=
  let reply := (s.gates m.skuId).deduct m now
  let s := s.setGate m.skuId reply.2
  match reply.1 with
  | none => s.respond m systemError
  | some status =>
      if status = 0 then s.respond m soldOut
      else if status = -1 then s.respond m duplicatePurchase
      else if status = -2 then s.respond m invalidSku
      else { s with handlers := m ::ₘ s.handlers, deducted := m ::ₘ s.deducted }

variable [DecidableEq κ]

def State.enqueue (s : State κ) (c : κ) (m : Member) : Option (State κ) :=
  if m ∈ s.handlers then
    (s.engine.start c (.enqueueRequest (creq m))).map fun e =>
      { s with
        engine := e
        handlers := s.handlers.erase m
        enqueuing := (c,m) ::ₘ s.enqueuing }
  else none

def State.enqueued (s : State κ) (c : κ) (m : Member) : Option (State κ) :=
  if (c,m) ∈ s.enqueuing then
    match s.engine.calls c with
    | .ret n =>
        let s := { s with enqueuing := s.enqueuing.erase (c,m) }
        if n = 1 then
          some ({ s with
            acceptedRequests := s.acceptedRequests + 1
            accepted := (c,m) ::ₘ s.accepted }.respond m (.queued m.reqId))
        else
          some { s with
            refused := (m,if n = 2 then soldOut else queueFull) ::ₘ s.refused
            rejected := (c,m) ::ₘ s.rejected }
    | _ => none
  else none

def State.undo (s : State κ) (m : Member) (r : Response) : Option (State κ) :=
  if (m,r) ∈ s.refused then
    some ({ s.setGate m.skuId ((s.gates m.skuId).rollback m).2 with
      refused := s.refused.erase (m,r)
      undone := m ::ₘ s.undone }.respond m r)
  else none

def State.poll (s : State κ) (c : κ) : Option (State κ) :=
  (s.engine.start c .pollResult).map fun e =>
    { s with engine := e, polling := c ::ₘ s.polling }

/-- The task with which a result worker asks for a rollback. -/
def rollbackTask (res : CSeckillResult) : Option CleanupTask :=
  if res.status = 1 then none else some (taskOf res)

def State.polled (s : State κ) (c : κ) : Option (State κ) :=
  if c ∈ s.polling then
    match s.engine.calls c with
    | .retResult none => some { s with polling := s.polling.erase c }
    | .retResult (some res) =>
        some { s with
          polling := s.polling.erase c
          resultsReceived := s.resultsReceived + 1
          resultsSoldOut := if res.status = 2 then s.resultsSoldOut + 1 else s.resultsSoldOut
          tasks := (rollbackTask res).elim s.tasks (· ::ₘ s.tasks)
          received := (c,res) ::ₘ s.received }
    | _ => none
  else none

def State.cleanup (s : State κ) (t : CleanupTask) : Option (State κ) :=
  if t ∈ s.tasks then
    some { s.setGate t.skuId ((s.gates t.skuId).rollback t.member).2 with
      tasks := s.tasks.erase t
      cleaned := t ::ₘ s.cleaned }
  else none

inductive Act (κ : Type) where
  | receive (http : HttpRequest) (now : Int)
  | enqueue (c : κ) (m : Member)
  | enqueued (c : κ) (m : Member)
  | undo (m : Member) (r : Response)
  | poll (c : κ)
  | polled (c : κ)
  | cleanup (t : CleanupTask)
  | warmUp (c : κ)
  | drain (c : κ)
  /-- A step of the engine's threads, or of a call in progress. -/
  | engine (a : Engine.Act κ)

def State.setEngine (s : State κ) (e : Engine.State κ) : State κ := { s with engine := e }

def State.next (s : State κ) : Act κ → Option (State κ)
  | .receive http now => some (s.receive http.member now)
  | .enqueue c m => s.enqueue c m
  | .enqueued c m => s.enqueued c m
  | .undo m r => s.undo m r
  | .poll c => s.poll c
  | .polled c => s.polled c
  | .cleanup t => s.cleanup t
  | .warmUp c => (s.engine.start c .warmUpEngine).map s.setEngine
  | .drain c => (s.engine.start c .waitEngineDrained).map s.setEngine
  | .engine (.start _ _) => none
  | .engine a => (s.engine.next a).map s.setEngine

def start (stock : Int64 → Option Int64) (e : Engine.State κ) : State κ where
  engine := e
  gates := fun skuId => (stock skuId).elim Gate.empty Gate.warmUp
  acceptedRequests := 0
  resultsReceived := 0
  resultsSoldOut := 0
  answers := []
  handlers := 0
  enqueuing := 0
  refused := 0
  polling := 0
  tasks := 0
  deducted := 0
  accepted := 0
  rejected := 0
  received := 0
  undone := 0
  cleaned := 0

def system : Transition.System (State κ) (Act κ) where
  init s := ∃ stock e, Engine.system.init e ∧ s = start stock e
  next := State.next

end Flashsale.Server
