import Flashsale.Worker
set_option autoImplicit false

namespace Flashsale.Engine
variable {κ : Type}

/-- The ids seen after a fresh one, where the cleanup may have forgotten them all. -/
def remember (seen : List UInt64) (reqId : UInt64) : List UInt64 :=
  if (reqId :: seen).length > 100000 then [] else reqId :: seen

def Request.decision (req : Request) (status : Int32) : CSeckillResult :=
  { req.result with status := status }

def Worker.take (w : Worker) (req : Request) (pc : Loop) : Worker :=
  { w with processed := w.processed ++ [req], pc := pc }

def Worker.decide (w : Worker) (req : Request) (items : List Request) (count : Nat) : Worker :=
  { w.take req (.flag req (req.decision (w.deduct req).1) items count) with
    inventory := (w.deduct req).2.inventory
    seenRequests := remember w.seenRequests req.requestId
    checker := w.checker.map (·.check req.requestId)
    decided := w.decided ++ [req.decision (w.deduct req).1] }

section Process
variable {w w' : Worker} {sh sh' : Shared κ} {req : Request} {items : List Request} {count : Nat}
  {uninit : CSeckillResult}

inductive ProcessStep (w : Worker) (sh : Shared κ) (req : Request) (items : List Request)
    (count : Nat) (uninit : CSeckillResult) : Shared κ → Worker → Prop where
  | warmUp (id : req.requestId = 0) :
      ProcessStep w sh req items count uninit sh (w.take req (.process items count))
  | barrier (id : req.requestId = barrierId) :
      ProcessStep w sh req items count uninit { sh with barrierReached := sh.barrierReached + 1 }
        (w.take req (.process items count))
  | benchmark (id : req.requestId ≠ barrierId) (limit : benchmarkLimit < req.requestId) :
      ProcessStep w sh req items count uninit sh
        (w.take req (.notify (req.benchmarkResult uninit) items count))
  | duplicate (id : req.requestId ≠ 0) (limit : req.requestId ≤ benchmarkLimit)
      (seen : req.requestId ∈ w.seenRequests) :
      ProcessStep w sh req items count uninit sh (w.take req (.process items count))
  | decided (id : req.requestId ≠ 0) (limit : req.requestId ≤ benchmarkLimit)
      (fresh : req.requestId ∉ w.seenRequests) :
      ProcessStep w sh req items count uninit
        { sh with soldTotal := if (w.deduct req).1 = 1 then
            sh.soldTotal + req.qty.toInt64.toUInt64 else sh.soldTotal }
        (w.decide req items count)

theorem Worker.process_step (h : w.process sh req items count uninit = (sh',w')) :
    ProcessStep w sh req items count uninit sh' w' := by
  unfold Worker.process at h
  dsimp only at h
  split at h
  · rename_i hid
    cases h
    exact .warmUp hid
  split at h
  · rename_i hid
    cases h
    exact .barrier hid
  split at h
  · rename_i hid hlim
    cases h
    exact .benchmark hid hlim
  rename_i hzero _ hlim
  have hle := UInt64.not_lt.mp hlim
  by_cases hseen : req.requestId ∈ w.seenRequests
  · simp only [Worker.isDuplicate,hseen,if_true] at h
    cases h
    exact .duplicate hzero hle hseen
  · simp only [Worker.isDuplicate,hseen,if_false] at h
    suffices hdec : (sh',w') =
        ({ sh with soldTotal := if (w.deduct req).1 = 1 then
            sh.soldTotal + req.qty.toInt64.toUInt64 else sh.soldTotal },
          w.decide req items count) by
      cases hdec
      exact .decided hzero hle hseen
    rw [← h]
    cases hstock : w.inventory req.skuId with
    | none => simp [Worker.decide,Worker.take,Worker.deduct,Worker.checkCorrectness,
        Request.decision,remember,hstock]
    | some stock =>
      by_cases hq : req.qty ≤ stock <;>
        simp [Worker.decide,Worker.take,Worker.deduct,Worker.checkCorrectness,
          Request.decision,remember,hstock,hq]

theorem Shared.storeFlag_eq (sh : Shared κ) (w : Worker) (sku : Int64) :
    ∃ soldOut, sh.storeFlag w sku = { sh with soldOut := soldOut } := by
  unfold Shared.storeFlag
  repeat' split
  all_goals exact ⟨_,rfl⟩

end Process

section Loop
variable [DecidableEq κ] {w w' : Worker} {sh sh' : Shared κ} {i : ShardId} {inp : WorkerInput}

/-- The journal entry follows a sale, before its result is published. -/
def Worker.journal (w : Worker) (req : Request) (res : CSeckillResult) (now : UInt64) : Worker :=
  if res.status = 1 then w.writeToWal req now else w

theorem Worker.journal_eq (w : Worker) (req : Request) (res : CSeckillResult) (now : UInt64) :
    ∃ wal, w.journal req res now = { w with wal := wal } := by
  unfold Worker.journal
  split
  · exact ⟨_,rfl⟩
  · exact ⟨_,rfl⟩

inductive WorkStep (w : Worker) (sh : Shared κ) (i : ShardId) (inp : WorkerInput) :
    Shared κ → Worker → Prop where
  | ask {q : SpscQueue.State Request} (recheck : Bool)
      (pc : w.pc = if recheck then .testRunning else .batch)
      (running : recheck = true → w.running = false)
      (next : w.queue.next (.tryDequeueBatch kBatchSize) = some q) :
      WorkStep w sh i inp sh { w with queue := q, pc := .dequeue recheck }
  | empty (recheck : Bool) (pc : w.pc = .dequeue recheck) (ret : w.queue.consumer = .ret []) :
      WorkStep w sh i inp sh { w with pc := if recheck then .exited else .testRunning }
  | taken {items : List Request} (recheck : Bool) (pc : w.pc = .dequeue recheck)
      (ret : w.queue.consumer = .ret items) (nonempty : items ≠ []) :
      WorkStep w sh i inp sh
        { w with pc := .setBusy (items.map ({ · with tsPopSpsc := inp.now })) }
  | consume {q : SpscQueue.State Request} (recheck : Bool) (pc : w.pc = .dequeue recheck)
      (ret : ∀ items, w.queue.consumer ≠ .ret items) (next : w.queue.next .consume = some q) :
      WorkStep w sh i inp sh { w with queue := q, pc := .dequeue recheck }
  | again (pc : w.pc = .testRunning) (running : w.running = true) :
      WorkStep w sh i inp sh { w with pc := .batch }
  | busy {items : List Request} (pc : w.pc = .setBusy items) :
      WorkStep w sh i inp sh { w with isProcessing := true, pc := .process items items.length }
  | idle {count : Nat} (pc : w.pc = .process [] count) :
      WorkStep w sh i inp sh { w with isProcessing := false, pc := .addCount count }
  | process {req : Request} {items : List Request} {count : Nat} {sh' : Shared κ} {w' : Worker}
      (pc : w.pc = .process (req :: items) count)
      (step : ProcessStep w sh req items count inp.uninit sh' w') :
      WorkStep w sh i inp sh' w'
  | flag {req : Request} {res : CSeckillResult} {items : List Request} {count : Nat}
      (pc : w.pc = .flag req res items count) :
      WorkStep w sh i inp (sh.storeFlag w req.skuId)
        { w.journal req res inp.systemNow with pc := .notify res items count }
  | offer {res : CSeckillResult} {items : List Request} {count : Nat}
      {q : MpmcQueue.State Nat CSeckillResult (ResultCaller κ)} (pc : w.pc = .notify res items count)
      (next : sh.resultQueue.next (.enqueue (.worker i w.tries) res) = some q) :
      WorkStep w sh i inp { sh with resultQueue := q } { w with pc := .publish res items count }
  | published {res data : CSeckillResult} {items : List Request} {count t : Nat}
      (pc : w.pc = .publish res items count)
      (ret : sh.resultQueue.pc (.worker i w.tries) = .enqReturn data (some t)) :
      WorkStep w sh i inp sh { w with tries := w.tries + 1, pc := .process items count }
  | refused {res data : CSeckillResult} {items : List Request} {count : Nat}
      (pc : w.pc = .publish res items count)
      (ret : sh.resultQueue.pc (.worker i w.tries) = .enqReturn data none) :
      WorkStep w sh i inp sh { w with tries := w.tries + 1, pc := .notify res items count }
  | publish {res : CSeckillResult} {items : List Request} {count : Nat}
      {q : MpmcQueue.State Nat CSeckillResult (ResultCaller κ)} (pc : w.pc = .publish res items count)
      (next : sh.resultQueue.next (.step (.worker i w.tries) inp.spurious) = some q) :
      WorkStep w sh i inp { sh with resultQueue := q } w
  | addCount {count : Nat} (pc : w.pc = .addCount count) :
      WorkStep w sh i inp sh
        { w with processedCount := w.processedCount + count.toUInt64, pc := .batch }

theorem Worker.step_cases (h : w.step sh i inp = some (sh',w')) : WorkStep w sh i inp sh' w' := by
  unfold Worker.step at h
  cases hpc : w.pc with
  | exited => simp [hpc] at h
  | batch =>
    simp only [hpc,Option.map_eq_some_iff] at h
    obtain ⟨q,hq,he⟩ := h
    cases he
    exact .ask false hpc (by simp) hq
  | testRunning =>
    simp only [hpc] at h
    split at h
    · rename_i hr
      cases h
      exact .again hpc hr
    · rename_i hr
      obtain ⟨q,hq,he⟩ := Option.map_eq_some_iff.mp h
      cases he
      exact .ask true hpc (fun _ => by simpa using hr) hq
  | dequeue recheck =>
    simp only [hpc] at h
    split at h
    · rename_i hret
      cases h
      exact .empty recheck hpc hret
    · rename_i items hne hret
      cases h
      exact .taken recheck hpc hret hne
    · rename_i hne
      obtain ⟨q,hq,he⟩ := Option.map_eq_some_iff.mp h
      cases he
      exact .consume recheck hpc hne hq
  | setBusy items =>
    simp only [hpc,Option.some.injEq] at h
    cases h
    exact .busy hpc
  | process items count =>
    cases items with
    | nil =>
      simp only [hpc,Option.some.injEq] at h
      cases h
      exact .idle hpc
    | cons req items =>
      simp only [hpc,Option.some.injEq] at h
      exact .process hpc (Worker.process_step h)
  | flag req res items count =>
    simp only [hpc,Option.some.injEq] at h
    cases h
    exact .flag hpc
  | notify res items count =>
    simp only [hpc,Option.map_eq_some_iff] at h
    obtain ⟨q,hq,he⟩ := h
    cases he
    exact .offer hpc hq
  | publish res items count =>
    simp only [hpc] at h
    split at h
    · rename_i hret
      cases h
      exact .published hpc hret
    · rename_i hret
      cases h
      exact .refused hpc hret
    · obtain ⟨q,hq,he⟩ := Option.map_eq_some_iff.mp h
      cases he
      exact .publish hpc hq
  | addCount count =>
    simp only [hpc,Option.some.injEq] at h
    cases h
    exact .addCount hpc

end Loop
end Flashsale.Engine
