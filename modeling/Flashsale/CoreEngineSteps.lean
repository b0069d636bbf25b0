import Flashsale.CoreEngine
import Flashsale.MpmcRecords
import Flashsale.SpscFrame
import Flashsale.WorkerSteps
set_option autoImplicit false

namespace Flashsale.CoreEngine
open Engine (barrierId remember)
variable {κ : Type}

section Process
variable {w w' : Worker} {sh sh' : Shared κ} {req : Request} {items : List Request} {count : Nat}

def Worker.take (w : Worker) (req : Request) (pc : Loop) : Worker :=
  { w with processed := w.processed ++ [req], pc := pc }

def Worker.decide (w : Worker) (req : Request) (items : List Request) (count : Nat) : Worker :=
  { w.take req (.flag req (req.result (w.deduct req).1) items count) with
    inventory := (w.deduct req).2.inventory
    seenRequests := remember w.seenRequests req.requestId }

inductive ProcessStep (w : Worker) (sh : Shared κ) (req : Request) (items : List Request)
    (count : Nat) : Shared κ → Worker → Prop where
  | barrier (id : req.requestId = barrierId) :
      ProcessStep w sh req items count { sh with barrierReached := sh.barrierReached + 1 }
        (w.take req (.process items count))
  | duplicate (id : req.requestId ≠ barrierId) (seen : req.requestId ∈ w.seenRequests) :
      ProcessStep w sh req items count sh (w.take req (.process items count))
  | decided (id : req.requestId ≠ barrierId) (fresh : req.requestId ∉ w.seenRequests) :
      ProcessStep w sh req items count
        { sh with soldTotal := if (w.deduct req).1 = 1 then
            sh.soldTotal + req.qty.toInt64.toUInt64 else sh.soldTotal }
        (w.decide req items count)

theorem Worker.process_step (h : w.process sh req items count = (sh',w')) :
    ProcessStep w sh req items count sh' w' := by
  unfold Worker.process at h
  dsimp only at h
  split at h
  · rename_i hid
    cases h
    exact .barrier hid
  rename_i hid
  by_cases hseen : req.requestId ∈ w.seenRequests
  · simp only [Worker.isDuplicate,hseen,if_true] at h
    cases h
    exact .duplicate hid hseen
  · simp only [Worker.isDuplicate,hseen,if_false] at h
    suffices hdec : (sh',w') =
        ({ sh with soldTotal := if (w.deduct req).1 = 1 then
            sh.soldTotal + req.qty.toInt64.toUInt64 else sh.soldTotal },
          w.decide req items count) by
      cases hdec
      exact .decided hid hseen
    rw [← h]
    cases hstock : w.inventory req.skuId with
    | none => simp [Worker.decide,Worker.take,Worker.deduct,remember,hstock]
    | some stock =>
      by_cases hq : req.qty ≤ stock <;>
        simp [Worker.decide,Worker.take,Worker.deduct,remember,hstock,hq]

theorem Shared.storeFlag_eq (sh : Shared κ) (w : Worker) (sku : Int64) :
    ∃ soldOut, sh.storeFlag w sku = { sh with soldOut := soldOut } := by
  unfold Shared.storeFlag
  repeat' split
  all_goals exact ⟨_,rfl⟩

/-- The journal entry follows a sale, before its result is published. -/
def Worker.journal (w : Worker) (req : Request) (res : CSeckillResult) (wr : WalWrite) : Worker :=
  if res.status = 1 then w.writeToWal req wr else w

theorem Worker.journal_eq (w : Worker) (req : Request) (res : CSeckillResult) (wr : WalWrite) :
    ∃ wal, w.journal req res wr = { w with wal := wal } := by
  unfold Worker.journal
  split
  · exact ⟨_,rfl⟩
  · exact ⟨_,rfl⟩

end Process

variable [DecidableEq κ]

section Work
variable {w w' : Worker} {sh sh' : Shared κ} {i : WorkerId} {wr : WalWrite} {spurious : Bool}

inductive WorkStep (w : Worker) (sh : Shared κ) (i : WorkerId) : Shared κ → Worker → Prop where
  | ask {q : SpscQueue.State Request} (recheck : Bool)
      (pc : w.pc = if recheck then .testRunning else .batch)
      (running : recheck = true → w.running = false)
      (next : w.queue.next (.tryDequeueBatch kBatchSize) = some q) :
      WorkStep w sh i sh { w with queue := q, pc := .dequeue recheck }
  | empty (recheck : Bool) (pc : w.pc = .dequeue recheck) (ret : w.queue.consumer = .ret []) :
      WorkStep w sh i sh { w with pc := if recheck then .exited else .testRunning }
  | taken {items : List Request} (recheck : Bool) (pc : w.pc = .dequeue recheck)
      (ret : w.queue.consumer = .ret items) : WorkStep w sh i sh { w with pc := .setBusy items }
  | consume {q : SpscQueue.State Request} (recheck : Bool) (pc : w.pc = .dequeue recheck)
      (next : w.queue.next .consume = some q) : WorkStep w sh i sh { w with queue := q }
  | again (pc : w.pc = .testRunning) (running : w.running = true) :
      WorkStep w sh i sh { w with pc := .batch }
  | busy {items : List Request} (pc : w.pc = .setBusy items) :
      WorkStep w sh i sh { w with isProcessing := true, pc := .process items items.length }
  | idle {count : Nat} (pc : w.pc = .process [] count) :
      WorkStep w sh i sh { w with isProcessing := false, pc := .addCount count }
  | process {req : Request} {items : List Request} {count : Nat} {sh' : Shared κ} {w' : Worker}
      (pc : w.pc = .process (req :: items) count)
      (step : ProcessStep w sh req items count sh' w') : WorkStep w sh i sh' w'
  | flag {req : Request} {res : CSeckillResult} {items : List Request} {count : Nat} (wr : WalWrite)
      (pc : w.pc = .flag req res items count) :
      WorkStep w sh i (sh.storeFlag w req.skuId)
        { w.journal req res wr with pc := .notify res items count }
  | offer {res : CSeckillResult} {items : List Request} {count : Nat}
      {q : MpmcQueue.State Nat CSeckillResult (ResultCaller κ)} (pc : w.pc = .notify res items count)
      (next : sh.resultQueue.next (.enqueue (.worker i w.tries) res) = some q) :
      WorkStep w sh i { sh with resultQueue := q } { w with pc := .publish res items count }
  | published {res data : CSeckillResult} {items : List Request} {count t : Nat}
      (pc : w.pc = .publish res items count)
      (ret : sh.resultQueue.pc (.worker i w.tries) = .enqReturn data (some t)) :
      WorkStep w sh i sh { w with tries := w.tries + 1, pc := .process items count }
  | refused {res data : CSeckillResult} {items : List Request} {count : Nat}
      (pc : w.pc = .publish res items count)
      (ret : sh.resultQueue.pc (.worker i w.tries) = .enqReturn data none) :
      WorkStep w sh i sh { w with tries := w.tries + 1, pc := .notify res items count }
  | publish {res : CSeckillResult} {items : List Request} {count : Nat}
      {q : MpmcQueue.State Nat CSeckillResult (ResultCaller κ)} (spurious : Bool)
      (pc : w.pc = .publish res items count)
      (next : sh.resultQueue.next (.step (.worker i w.tries) spurious) = some q) :
      WorkStep w sh i { sh with resultQueue := q } w
  | addCount {count : Nat} (pc : w.pc = .addCount count) :
      WorkStep w sh i sh
        { w with processedCount := w.processedCount + count.toUInt64, pc := .batch }

theorem Worker.step_cases (h : w.step sh i wr spurious = some (sh',w')) : WorkStep w sh i sh' w' := by
  unfold Worker.step at h
  cases hpc : w.pc with
  | exited => simp [hpc] at h
  | batch =>
    simp only [hpc,Option.map_eq_some_iff] at h
    obtain ⟨q,hq,he⟩ := h
    cases he
    exact .ask false hpc (by simp) hq
  | testRunning =>
    simp only [hpc] at h
    split at h
    · rename_i hr
      cases h
      exact .again hpc hr
    · rename_i hr
      obtain ⟨q,hq,he⟩ := Option.map_eq_some_iff.mp h
      cases he
      exact .ask true hpc (fun _ => by simpa using hr) hq
  | dequeue recheck =>
    simp only [hpc] at h
    split at h
    · rename_i hret
      cases h
      exact .empty recheck hpc hret
    · rename_i items hne hret
      cases h
      exact .taken recheck hpc hret
    · obtain ⟨q,hq,he⟩ := Option.map_eq_some_iff.mp h
      cases he
      rw [← hpc]
      exact .consume recheck hpc hq
  | setBusy items =>
    simp only [hpc,Option.some.injEq] at h
    cases h
    exact .busy hpc
  | process items count =>
    cases items with
    | nil =>
      simp only [hpc,Option.some.injEq] at h
      cases h
      exact .idle hpc
    | cons req items =>
      simp only [hpc,Option.some.injEq] at h
      exact .process hpc (Worker.process_step h)
  | flag req res items count =>
    simp only [hpc,Option.some.injEq] at h
    cases h
    exact .flag wr hpc
  | notify res items count =>
    simp only [hpc,Option.map_eq_some_iff] at h
    obtain ⟨q,hq,he⟩ := h
    cases he
    exact .offer hpc hq
  | publish res items count =>
    simp only [hpc] at h
    split at h
    · rename_i hret
      cases h
      exact .published hpc hret
    · rename_i hret
      cases h
      exact .refused hpc hret
    · obtain ⟨q,hq,he⟩ := Option.map_eq_some_iff.mp h
      cases he
      exact .publish spurious hpc hq
  | addCount count =>
    simp only [hpc,Option.some.injEq] at h
    cases h
    exact .addCount hpc

end Work

section Dispatch
variable {e e' : State κ} {spurious : Bool}

inductive DispatchStep (e : State κ) : State κ → Prop where
  | test (k : Nat) (pc : e.dispatcher = .loop k []) :
      DispatchStep e
        { e with dispatcher := if e.running then .dequeue k [] else .loadDequeuePos k }
  | loadHead (k : Nat) (pc : e.dispatcher = .loadDequeuePos k) :
      DispatchStep e { e with dispatcher := .loadEnqueuePos k e.queue.dequeuePos }
  | more (k dequeuePos : Nat) (pc : e.dispatcher = .loadEnqueuePos k dequeuePos)
      (lt : dequeuePos < e.queue.enqueuePos) : DispatchStep e { e with dispatcher := .dequeue k [] }
  | leave (k dequeuePos : Nat) (pc : e.dispatcher = .loadEnqueuePos k dequeuePos)
      (le : e.queue.enqueuePos ≤ dequeuePos) : DispatchStep e { e with dispatcher := .exited }
  | call (k : Nat) (batch : List Request) (q : MpmcQueue.State Nat Request (Caller κ))
      (pc : e.dispatcher = .dequeue k batch)
      (next : e.queue.next (.dequeue (.dispatcher k)) = some q) :
      DispatchStep e { e with queue := q, dispatcher := .dequeuing k batch }
  | access (k : Nat) (batch : List Request) (spurious : Bool)
      (q : MpmcQueue.State Nat Request (Caller κ)) (pc : e.dispatcher = .dequeuing k batch)
      (next : e.queue.next (.step (.dispatcher k) spurious) = some q) :
      DispatchStep e { e with queue := q }
  | empty (k : Nat) (batch : List Request) (pc : e.dispatcher = .dequeuing k batch)
      (ret : e.queue.pc (.dispatcher k) = .deqReturn none) :
      DispatchStep e { e with dispatcher := .loop (k+1) batch }
  | popped (k pos : Nat) (req : Request) (batch : List Request)
      (pc : e.dispatcher = .dequeuing k batch)
      (ret : e.queue.pc (.dispatcher k) = .deqReturn (some (pos,req))) :
      DispatchStep e { e with
        dispatcher := if (batch ++ [req]).length < kDispatchBatch then .dequeue (k+1) (batch ++ [req])
          else .loop (k+1) (batch ++ [req]) }
  | barrier (k : Nat) (req : Request) (items : List Request)
      (pc : e.dispatcher = .loop k (req :: items)) (id : req.requestId = barrierId) :
      DispatchStep e { e with
        handled := e.handled ++ [req]
        dispatcher := .push k req.targets req items
        shared := { e.shared with barrierReached := 0 } }
  | handle (k : Nat) (req : Request) (items : List Request)
      (pc : e.dispatcher = .loop k (req :: items)) (id : req.requestId ≠ barrierId)
      (idle : e.checking = none) :
      DispatchStep e { e with
        handled := e.handled ++ [req]
        dispatcher := .push k req.targets req items
        checking := if e.statics.checkCorrectness then some ⟨req.requestId,.testEqual⟩ else none }
  | done (k : Nat) (req : Request) (items : List Request) (pc : e.dispatcher = .push k [] req items) :
      DispatchStep e { e with dispatcher := .loop k items }
  | ask (k : Nat) (i : WorkerId) (targets : List WorkerId) (req : Request) (items : List Request)
      (q : SpscQueue.State Request) (pc : e.dispatcher = .push k (i :: targets) req items)
      (next : (e.workers i).queue.next (.tryEnqueue req) = some q) :
      DispatchStep e { e.setQueue i q with dispatcher := .pushing k i targets req items }
  | push (k : Nat) (i : WorkerId) (targets : List WorkerId) (req : Request) (items : List Request)
      (q : SpscQueue.State Request) (pc : e.dispatcher = .pushing k i targets req items)
      (next : (e.workers i).queue.next .produce = some q) : DispatchStep e (e.setQueue i q)
  | pushed (k : Nat) (i : WorkerId) (targets : List WorkerId) (req : Request) (items : List Request)
      (pc : e.dispatcher = .pushing k i targets req items)
      (ret : (e.workers i).queue.producer = .ret true) :
      DispatchStep e { e with dispatcher := .push k targets req items }
  | refused (k : Nat) (i : WorkerId) (targets : List WorkerId) (req : Request) (items : List Request)
      (pc : e.dispatcher = .pushing k i targets req items)
      (ret : (e.workers i).queue.producer = .ret false) :
      DispatchStep e { e with dispatcher := .testRunning k i targets req items }
  | retry (k : Nat) (i : WorkerId) (targets : List WorkerId) (req : Request) (items : List Request)
      (pc : e.dispatcher = .testRunning k i targets req items) (running : e.running = true) :
      DispatchStep e { e with dispatcher := .push k (i :: targets) req items }
  | drop (k : Nat) (i : WorkerId) (targets : List WorkerId) (req : Request) (items : List Request)
      (pc : e.dispatcher = .testRunning k i targets req items) (running : e.running = false) :
      DispatchStep e { e with
        dispatcher := .push k targets req items, dropped := e.dropped ++ [(i,req)] }
  | check (c : Checking) (checking : e.checking = some c) :
      DispatchStep e { e with
        checking := (c.step e.statics).1, statics := (c.step e.statics).2 }

theorem State.dispatchNext_cases (hc : e.checking = none) (h : e.dispatchNext spurious = some e') :
    DispatchStep e e' := by
  unfold State.dispatchNext at h
  cases hd : e.dispatcher with
  | loop k items =>
    cases items with
    | nil =>
      simp only [hd,Option.some.injEq] at h
      subst h
      exact .test k hd
    | cons req items =>
      simp only [hd] at h
      split at h <;> cases h
      · exact .barrier k req items hd ‹_›
      · exact .handle k req items hd ‹_› hc
  | loadDequeuePos k =>
    simp only [hd,Option.some.injEq] at h
    subst h
    exact .loadHead k hd
  | loadEnqueuePos k dequeuePos =>
    have hsize : MpmcQueue.size dequeuePos e.queue.enqueuePos > 0 ↔
        dequeuePos < e.queue.enqueuePos := by
      simp only [MpmcQueue.size,SizeT.val_nat]
      split <;> omega
    simp only [hd,hsize,Option.some.injEq] at h
    subst h
    split
    · exact .more k dequeuePos hd ‹_›
    · exact .leave k dequeuePos hd (by omega)
  | dequeue k batch =>
    simp only [hd,Option.map_eq_some_iff] at h
    obtain ⟨q,hq,rfl⟩ := h
    exact .call k batch q hd hq
  | dequeuing k batch =>
    simp only [hd] at h
    split at h
    · cases h
      exact .empty k batch hd ‹_›
    · cases h
      exact .popped k _ _ batch hd ‹_›
    · obtain ⟨q,hq,rfl⟩ := Option.map_eq_some_iff.mp h
      rw [← hd]
      exact .access k batch spurious q hd hq
  | push k targets req items =>
    cases targets with
    | nil =>
      simp only [hd,Option.some.injEq] at h
      subst h
      exact .done k req items hd
    | cons i targets =>
      simp only [hd,Option.map_eq_some_iff] at h
      obtain ⟨q,hq,rfl⟩ := h
      exact .ask k i targets req items q hd hq
  | pushing k i targets req items =>
    simp only [hd] at h
    split at h
    · cases h
      exact .pushed k i targets req items hd ‹_›
    · cases h
      exact .refused k i targets req items hd ‹_›
    · obtain ⟨q,hq,rfl⟩ := Option.map_eq_some_iff.mp h
      exact .push k i targets req items q hd hq
  | testRunning k i targets req items =>
    simp only [hd] at h
    split at h <;> cases h
    · exact .retry k i targets req items hd ‹_›
    · exact .drop k i targets req items hd (by simpa using ‹¬ e.running = true›)
  | exited => simp [hd] at h

theorem State.dispatch_cases (h : e.dispatch spurious = some e') : DispatchStep e e' := by
  unfold State.dispatch at h
  cases hc : e.checking with
  | none =>
    rw [hc] at h
    exact State.dispatchNext_cases hc h
  | some c =>
    simp only [hc,Option.some.injEq] at h
    subst h
    exact .check c hc

end Dispatch

section Client
variable {e e' : State κ} {c : κ} {spurious : Bool}

inductive ClientStep (e : State κ) (c : κ) : State κ → Prop where
  | requestTest (creq : Request) (pc : e.calls c = .requestTestRunning creq) :
      ClientStep e c (e.setCall c (if e.running then .testFlag creq else .ret 0))
  | batchTest (reqs : List Request) (pc : e.calls c = .batchTestRunning reqs) :
      ClientStep e c (e.setCall c (if e.running then .enqueue reqs 0 else .ret 0))
  | testFlag (creq : Request) (pc : e.calls c = .testFlag creq) :
      ClientStep e c (e.setCall c
        (if e.shared.soldOut creq.skuId = some true then .ret 2 else .enqueue [creq] 0))
  | finish (n : Nat) (pc : e.calls c = .enqueue [] n) : ClientStep e c (e.setCall c (.ret n))
  | attempt (req : Request) (todo : List Request) (n : Nat)
      (pc : e.calls c = .enqueue (req :: todo) n) (idle : e.queue.pc (.client c n) = .idle) :
      ClientStep e c
        ({ e with queue := e.queue.goto (.client c n) (.enqLoadPos req) }.setCall c
          (.enqueuing (req :: todo) n))
  | access (k : Nat) (spurious : Bool) (q : MpmcQueue.State Nat Request (Caller κ))
      (pc : (∃ todo, e.calls c = .enqueuing todo k) ∨ e.calls c = .signalling k)
      (next : e.queue.next (.step (.client c k) spurious) = some q) :
      ClientStep e c { e with queue := q }
  | accepted (todo : List Request) (n t : Nat) (data : Request)
      (pc : e.calls c = .enqueuing todo n)
      (ret : e.queue.pc (.client c n) = .enqReturn data (some t)) :
      ClientStep e c (e.setCall c (.enqueue todo.tail (n+1)))
  | full (todo : List Request) (n : Nat) (data : Request) (pc : e.calls c = .enqueuing todo n)
      (ret : e.queue.pc (.client c n) = .enqReturn data none) : ClientStep e c (e.setCall c (.ret n))
  | reentered (pc : e.calls c = .enterDrain) (inside : e.inside = true) :
      ClientStep e c (e.setCall c (.ret 0))
  | enter (pc : e.calls c = .enterDrain) (inside : e.inside = false) :
      ClientStep e c ({ e with inside := true }.setCall c .resetBarrier)
  | reset (pc : e.calls c = .resetBarrier) :
      ClientStep e c ({ e with shared := { e.shared with barrierReached := 0 } }.setCall c (.signal 0))
  | signal (k : Nat) (pc : e.calls c = .signal k) (idle : e.queue.pc (.client c k) = .idle) :
      ClientStep e c
        ({ e with queue := e.queue.goto (.client c k) (.enqLoadPos barrierRequest) }.setCall c
          (.signalling k))
  | signalled (k t : Nat) (data : Request) (pc : e.calls c = .signalling k)
      (ret : e.queue.pc (.client c k) = .enqReturn data (some t)) :
      ClientStep e c (e.setCall c .awaitBarrier)
  | unsignalled (k : Nat) (data : Request) (pc : e.calls c = .signalling k)
      (ret : e.queue.pc (.client c k) = .enqReturn data none) :
      ClientStep e c (e.setCall c (.signal (k+1)))
  | reached (pc : e.calls c = .awaitBarrier) (acks : e.shared.barrierReached.toNat ≥ kWorkerCount) :
      ClientStep e c (e.setCall c .leaveDrain)
  | waiting (pc : e.calls c = .awaitBarrier) : ClientStep e c (e.setCall c .awaitRunning)
  | stillRunning (pc : e.calls c = .awaitRunning) (running : e.running = true) :
      ClientStep e c (e.setCall c .awaitBarrier)
  | stopped (pc : e.calls c = .awaitRunning) (running : e.running = false) :
      ClientStep e c (e.setCall c .leaveDrain)
  | leave (pc : e.calls c = .leaveDrain) :
      ClientStep e c ({ e with inside := false }.setCall c (.ret 0))
  | checkOff (enabled : Int32) (pc : e.calls c = .storeCheck enabled) (off : enabled = 0) :
      ClientStep e c
        ({ e with statics := { e.statics with checkCorrectness := false } }.setCall c (.ret 0))
  | checkOn (enabled : Int32) (pc : e.calls c = .storeCheck enabled) (on : enabled ≠ 0) :
      ClientStep e c
        ({ e with statics := { e.statics with checkCorrectness := true } }.setCall c .resetExpectedSeq)
  | resetExpectedSeq (pc : e.calls c = .resetExpectedSeq) :
      ClientStep e c
        ({ e with statics := { e.statics with expectedSeq := 1 } }.setCall c .resetGapCount)
  | resetGapCount (pc : e.calls c = .resetGapCount) :
      ClientStep e c ({ e with statics := { e.statics with gapCount := 0 } }.setCall c .resetDupCount)
  | resetDupCount (pc : e.calls c = .resetDupCount) :
      ClientStep e c
        ({ e with statics := { e.statics with dupCount := 0 } }.setCall c .resetLastSeqSeen)
  | resetLastSeqSeen (pc : e.calls c = .resetLastSeqSeen) :
      ClientStep e c ({ e with statics := { e.statics with lastSeqSeen := 0 } }.setCall c (.ret 0))
  | loadLastSeqSeen (pc : e.calls c = .loadLastSeqSeen) :
      ClientStep e c (e.setCall c (.loadGapCount e.statics.lastSeqSeen))
  | loadGapCount (lastSeq : UInt64) (pc : e.calls c = .loadGapCount lastSeq) :
      ClientStep e c (e.setCall c (.loadDupCount lastSeq e.statics.gapCount))
  | loadDupCount (lastSeq gap : UInt64) (pc : e.calls c = .loadDupCount lastSeq gap) :
      ClientStep e c (e.setCall c (.retStats lastSeq gap e.statics.dupCount))
  | polled (won : Option (Nat × CSeckillResult)) (pc : e.calls c = .polling)
      (ret : e.shared.resultQueue.pc (.poller c) = .deqReturn won) :
      ClientStep e c (e.setCall c (.retResult (won.map (·.2))))
  | poll (spurious : Bool) (q : MpmcQueue.State Nat CSeckillResult (ResultCaller κ))
      (pc : e.calls c = .polling)
      (next : e.shared.resultQueue.next (.step (.poller c) spurious) = some q) :
      ClientStep e c { e with shared := { e.shared with resultQueue := q } }

theorem State.client_cases (h : e.client c spurious = some e') : ClientStep e c e' := by
  unfold State.client at h
  cases hc : e.calls c with
  | idle | ret n | retResult res | retStats lastSeq gap dup => simp [hc] at h
  | requestTestRunning creq =>
    simp only [hc,Option.some.injEq] at h
    subst h
    exact .requestTest creq hc
  | batchTestRunning reqs =>
    simp only [hc,Option.some.injEq] at h
    subst h
    exact .batchTest reqs hc
  | testFlag creq =>
    simp only [hc,Option.some.injEq] at h
    subst h
    exact .testFlag creq hc
  | enqueue todo n =>
    cases todo with
    | nil =>
      simp only [hc,Option.some.injEq] at h
      subst h
      exact .finish n hc
    | cons req todo =>
      simp only [hc,Option.map_eq_some_iff] at h
      obtain ⟨q,hq,rfl⟩ := h
      obtain ⟨hidle,rfl⟩ := MpmcQueue.State.call_eq hq
      exact .attempt req todo n hc hidle
  | enqueuing todo n =>
    simp only [hc] at h
    split at h
    · cases h
      exact .accepted todo n _ _ hc ‹_›
    · cases h
      exact .full todo n _ hc ‹_›
    · obtain ⟨q,hq,rfl⟩ := Option.map_eq_some_iff.mp h
      exact .access n spurious q (.inl ⟨todo,hc⟩) hq
  | enterDrain =>
    simp only [hc,Option.some.injEq] at h
    subst h
    cases hin : e.inside with
    | true =>
      have hsame : { e with inside := true } = e := by rw [← hin]
      simp only [if_true,hsame]
      exact .reentered hc hin
    | false => exact .enter hc hin
  | resetBarrier =>
    simp only [hc,Option.some.injEq] at h
    subst h
    exact .reset hc
  | signal k =>
    simp only [hc,Option.map_eq_some_iff] at h
    obtain ⟨q,hq,rfl⟩ := h
    obtain ⟨hidle,rfl⟩ := MpmcQueue.State.call_eq hq
    exact .signal k hc hidle
  | signalling k =>
    simp only [hc] at h
    split at h
    · cases h
      exact .signalled k _ _ hc ‹_›
    · cases h
      exact .unsignalled k _ hc ‹_›
    · obtain ⟨q,hq,rfl⟩ := Option.map_eq_some_iff.mp h
      exact .access k spurious q (.inr hc) hq
  | awaitBarrier =>
    simp only [hc,Option.some.injEq] at h
    subst h
    split
    · exact .reached hc ‹_›
    · exact .waiting hc
  | awaitRunning =>
    simp only [hc,Option.some.injEq] at h
    subst h
    cases hr : e.running with
    | true => exact .stillRunning hc hr
    | false => exact .stopped hc hr
  | leaveDrain =>
    simp only [hc,Option.some.injEq] at h
    subst h
    exact .leave hc
  | storeCheck enabled =>
    by_cases hen : enabled = 0
    · simp only [hc,hen,ne_eq,not_true,decide_false,if_false,Option.some.injEq] at h
      subst h
      exact .checkOff enabled hc hen
    · simp only [hc,hen,ne_eq,not_false_eq_true,decide_true,if_true,Option.some.injEq] at h
      subst h
      exact .checkOn enabled hc hen
  | resetExpectedSeq =>
    simp only [hc,Option.some.injEq] at h
    subst h
    exact .resetExpectedSeq hc
  | resetGapCount =>
    simp only [hc,Option.some.injEq] at h
    subst h
    exact .resetGapCount hc
  | resetDupCount =>
    simp only [hc,Option.some.injEq] at h
    subst h
    exact .resetDupCount hc
  | resetLastSeqSeen =>
    simp only [hc,Option.some.injEq] at h
    subst h
    exact .resetLastSeqSeen hc
  | loadLastSeqSeen =>
    simp only [hc,Option.some.injEq] at h
    subst h
    exact .loadLastSeqSeen hc
  | loadGapCount lastSeq =>
    simp only [hc,Option.some.injEq] at h
    subst h
    exact .loadGapCount lastSeq hc
  | loadDupCount lastSeq gap =>
    simp only [hc,Option.some.injEq] at h
    subst h
    exact .loadDupCount lastSeq gap hc
  | polling =>
    simp only [hc] at h
    split at h
    · rename_i hret
      cases h
      exact .polled _ hc hret
    · obtain ⟨q,hq,rfl⟩ := Option.map_eq_some_iff.mp h
      exact .poll spurious q hc hq

end Client

section Stop
variable {e e' : State κ}

inductive StopStep (e : State κ) : State κ → Prop where
  | requestStop (pc : e.stop = .notCalled) :
      StopStep e { e with running := false, stop := .joinDispatcher }
  | joinDispatcher (pc : e.stop = .joinDispatcher) (exited : e.dispatcher = .exited) :
      StopStep e { e with stop := .stopWorker 0 }
  | stopWorker (i : WorkerId) (pc : e.stop = .stopWorker i) :
      StopStep e { e with
        workers := Function.update e.workers i { e.workers i with running := false }
        stop := .joinWorker i }
  | joinWorker (i : WorkerId) (pc : e.stop = .joinWorker i) (exited : (e.workers i).pc = .exited) :
      StopStep e { e with stop := .stopWorker (i+1) }
  | returned (i : Nat) (pc : e.stop = .stopWorker i) (ge : kWorkerCount ≤ i) :
      StopStep e { e with stop := .returned }

omit [DecidableEq κ] in
theorem State.stop_cases (h : e.stopEngine = some e') : StopStep e e' := by
  unfold State.stopEngine at h
  cases hs : e.stop with
  | notCalled =>
    simp only [hs,Option.some.injEq] at h
    subst h
    exact .requestStop hs
  | joinDispatcher =>
    simp only [hs] at h
    split at h <;> cases h
    exact .joinDispatcher hs ‹_›
  | stopWorker i =>
    simp only [hs] at h
    split at h <;> cases h
    · exact .stopWorker ⟨i,‹_›⟩ hs
    · exact .returned i hs (by omega)
  | joinWorker i =>
    simp only [hs] at h
    split at h
    · split at h <;> cases h
      exact .joinWorker ⟨i,‹_›⟩ hs ‹_›
    · cases h
  | returned => simp [hs] at h

end Stop
end Flashsale.CoreEngine
