import Flashsale.EngineIdle
import Flashsale.Shutdown
import Mathlib
set_option autoImplicit false

namespace Flashsale.Engine
open Transition
variable {κ : Type}

/-- `pushed` is history: the requests for which `Enqueue` returned true. -/
structure Solo (κ : Type) where
  shared : Shared κ
  worker : Worker
  pushed : List Request

inductive SoloAct (κ : Type) where
  /-- The dispatcher calls `Enqueue`, which it does before `Stop` alone. -/
  | enqueue (wreq : Request)
  /-- The next access of `Enqueue`. -/
  | produce
  /-- `Stop` stores `running_`, after the last `Enqueue` has returned. -/
  | stop
  | work (inp : WorkerInput)
  /-- Other threads. -/
  | others (sh : Shared κ)

def Worker.setQueue (w : Worker) (q : SpscQueue.State Request) : Worker := { w with queue := q }

def Worker.unpushing (w : Worker) : Bool :=
  match w.queue.producer with
  | .idle | .ret _ => true
  | _ => false

variable [DecidableEq κ]

def Solo.next (i : ShardId) (s : Solo κ) : SoloAct κ → Option (Solo κ)
  | .enqueue wreq =>
      if s.worker.running then
        (s.worker.queue.next (.tryEnqueue wreq)).map fun q =>
          { s with worker := s.worker.setQueue q }
      else none
  | .produce =>
      (s.worker.queue.next .produce).map fun q =>
        { s with
          worker := s.worker.setQueue q
          pushed := if q.producer = .ret true then s.pushed ++ s.worker.queue.producer.items
            else s.pushed }
  | .stop =>
      if s.worker.unpushing then some { s with worker := { s.worker with running := false } }
      else none
  | .work inp =>
      (s.worker.step s.shared i inp).map fun (sh,w) => { s with shared := sh, worker := w }
  | .others sh => some { s with shared := sh }

def soloSystem (i : ShardId) : System (Solo κ) (SoloAct κ) where
  init s := s.worker = startWorker ∧ s.pushed = []
  next := Solo.next i

def Request.unstamped (req : Request) : Request := { req with tsPopSpsc := 0 }

/-- The requests of the batch before the counter has it. -/
def Loop.batchCount : Loop → Nat
  | .process _ count | .flag _ _ _ count | .notify _ _ count | .publish _ _ count
  | .addCount count => count
  | .batch | .dequeue _ | .testRunning | .setBusy _ | .exited => 0

def Loop.unprocessed : Loop → Nat
  | .process items _ | .flag _ _ items _ | .notify _ items _ | .publish _ items _ => items.length
  | .batch | .dequeue _ | .testRunning | .setBusy _ | .addCount _ | .exited => 0

/-- What was taken from the queue is processed or in the batch buffer, with all its fields. -/
def Worker.Taken (w : Worker) : Prop :=
  (w.processed ++ w.batchBuffer).map Request.unstamped = w.queue.delivered.map Request.unstamped

def Worker.Counted (w : Worker) : Prop :=
  ∃ n : Nat, w.processedCount = n.toUInt64 ∧
    w.processed.length + w.pc.unprocessed = n + w.pc.batchCount

section Worker
variable {w w' : Worker} {sh sh' : Shared κ} {i : ShardId} {inp : WorkerInput}

theorem WorkStep.taken_step (h : w.Taken) (hs : WorkStep w sh i inp sh' w') : w'.Taken := by
  unfold Worker.Taken Worker.batchBuffer at h ⊢
  cases hs with
  | ask recheck pc _ next =>
    obtain rfl := SpscQueue.State.callConsumer_eq next
    cases recheck <;> simpa [pc,Loop.items,SpscQueue.State.returned] using h
  | empty recheck pc ret =>
    cases recheck <;> simpa [pc,ret,Loop.items,SpscQueue.State.returned] using h
  | @taken items recheck pc ret _ =>
    have hstamp : (items.map ({ · with tsPopSpsc := inp.now })).map Request.unstamped =
        items.map Request.unstamped := by
      rw [List.map_map]
      rfl
    rw [pc] at h
    simp only [SpscQueue.State.returned,ret] at h
    simpa only [Loop.items,List.map_append,hstamp] using h
  | @consume q recheck pc ret next =>
    have hnone : w.queue.returned = [] := by
      unfold SpscQueue.State.returned
      split
      · exact absurd ‹_› (ret _)
      · rfl
    rw [pc] at h
    simp only [hnone,List.append_nil] at h
    simp only [(SpscQueue.State.consume_cases next).2.2,List.map_append,h]
  | process pc step =>
    rw [pc] at h
    cases step <;> simpa [Worker.take,Worker.decide,Loop.items] using h
  | @flag req res items count pc =>
    rw [pc] at h
    by_cases hs : res.status = 1 <;>
      simpa [Worker.journal,hs,Worker.writeToWal,Loop.items] using h
  | publish pc _ => exact h
  | again pc _ | busy pc | idle pc | offer pc _ | published pc _ | refused pc _ | addCount pc =>
    rw [pc] at h
    simpa [Loop.items] using h

theorem WorkStep.counted_step (h : w.Counted) (hs : WorkStep w sh i inp sh' w') : w'.Counted := by
  obtain ⟨n,hn,hlen⟩ := h
  cases hs with
  | ask recheck pc _ _ =>
    refine ⟨n,hn,?_⟩
    cases recheck <;> simpa [pc,Loop.unprocessed,Loop.batchCount] using hlen
  | empty recheck pc _ =>
    refine ⟨n,hn,?_⟩
    cases recheck <;> simpa [pc,Loop.unprocessed,Loop.batchCount] using hlen
  | @process req items count sh' w' pc step =>
    have hnext : w'.processedCount = w.processedCount ∧ w'.processed = w.processed ++ [req] ∧
        w'.pc.unprocessed = items.length ∧ w'.pc.batchCount = count := by
      cases step <;> exact ⟨rfl,rfl,rfl,rfl⟩
    refine ⟨n,hnext.1.trans hn,?_⟩
    rw [pc] at hlen
    simp only [Loop.unprocessed,Loop.batchCount,List.length_cons] at hlen
    rw [hnext.2.1,hnext.2.2.1,hnext.2.2.2,List.length_append,List.length_singleton]
    omega
  | @flag req res items count pc =>
    have hsame : (w.journal req res inp.systemNow).processedCount = w.processedCount ∧
        (w.journal req res inp.systemNow).processed = w.processed := by
      by_cases hs : res.status = 1 <;> simp [Worker.journal,hs,Worker.writeToWal]
    refine ⟨n,hsame.1.trans hn,?_⟩
    rw [pc] at hlen
    simp only [hsame.2]
    exact hlen
  | @addCount count pc =>
    rw [pc] at hlen
    simp only [Loop.unprocessed,Loop.batchCount] at hlen
    refine ⟨n + count,?_,by simpa [Loop.unprocessed,Loop.batchCount] using hlen⟩
    simp only [hn,Nat.toUInt64_eq,UInt64.ofNat_add]
  | publish pc _ => exact ⟨n,hn,hlen⟩
  | taken _ pc | consume _ pc | again pc | busy pc | idle pc | offer pc | published pc | refused pc =>
    exact ⟨n,hn,by simpa [pc,Loop.unprocessed,Loop.batchCount] using hlen⟩

theorem LoopOk.push {q : SpscQueue.State Request} {a : SpscQueue.Act Request} (h : LoopOk w)
    (hn : w.queue.next a = some q) (hc : q.consumer = w.queue.consumer)
    (hr : w.running = true) : LoopOk (w.setQueue q) where
  spsc := h.spsc.next hn
  asks := by rw [Worker.setQueue,hc]; exact h.asks
  leaving hl := absurd (h.leaving hl) (by simp [hr])
  drained hl := by
    have hpc : w.pc = .dequeue true ∨ w.pc = .exited := hl.imp (·.1) id
    exact absurd (h.leaving hpc) (by simp [hr])

theorem LoopOk.stop (h : LoopOk w) : LoopOk { w with running := false } :=
  ⟨h.spsc,h.asks,fun _ => rfl,h.drained⟩

theorem Worker.Taken.setQueue {q : SpscQueue.State Request} (h : w.Taken)
    (hd : q.delivered = w.queue.delivered) (hc : q.consumer = w.queue.consumer) :
    (w.setQueue q).Taken := by
  simpa only [Worker.Taken,Worker.setQueue,Worker.batchBuffer,SpscQueue.State.returned,hd,hc] using h

end Worker

structure Solo.Ok (s : Solo κ) : Prop where
  loop : LoopOk s.worker
  pushed : s.pushed = s.worker.queue.accepted
  taken : s.worker.Taken
  marked : s.worker.isProcessing = s.worker.pc.busy
  counted : s.worker.Counted
  stopped : s.worker.running = false → s.worker.unpushing = true

omit [DecidableEq κ] in
theorem startWorker_ok {s : Solo κ} (hw : s.worker = startWorker) (hp : s.pushed = []) : s.Ok := by
  obtain ⟨sh,w,pushed⟩ := s
  obtain rfl : w = startWorker := hw
  obtain rfl : pushed = [] := hp
  exact {
    loop := {
      spsc := SpscQueue.create_inv _
      asks := trivial
      leaving := fun h => by rcases h with h | h <;> cases h
      drained := fun h => by rcases h with ⟨h,-⟩ | h <;> cases h }
    pushed := rfl
    taken := rfl
    marked := rfl
    counted := ⟨0,rfl,rfl⟩
    stopped := fun h => by cases h }

theorem unpushing_of_produce {w : Worker} {q : SpscQueue.State Request}
    (hn : w.queue.next .produce = some q) : w.unpushing = false := by
  have hproduce : w.queue.produce = some q := hn
  unfold SpscQueue.State.produce at hproduce
  unfold Worker.unpushing
  cases hp : w.queue.producer <;> simp [hp] at hproduce ⊢

theorem Solo.Ok.next {i : ShardId} {s t : Solo κ} {a : SoloAct κ} (h : s.Ok)
    (hn : s.next i a = some t) : t.Ok := by
  cases a with
  | enqueue wreq =>
    simp only [Solo.next] at hn
    split at hn
    · rename_i hr
      obtain ⟨q,hq,rfl⟩ := Option.map_eq_some_iff.mp hn
      have hloop := h.loop
      have heq := SpscQueue.State.callProducer_eq hq
      refine ⟨h.loop.push hq (by rw [heq]) hr,h.pushed.trans (by rw [heq]; rfl),
        h.taken.setQueue (by rw [heq]) (by rw [heq]),h.marked,h.counted,fun hf => ?_⟩
      exact absurd (hr.symm.trans hf) (by decide)
    · cases hn
  | produce =>
    obtain ⟨q,hq,rfl⟩ := Option.map_eq_some_iff.mp hn
    have hbusy := unpushing_of_produce hq
    have hr : s.worker.running = true := by
      by_contra hf
      rw [h.stopped (by simpa using hf)] at hbusy
      cases hbusy
    obtain ⟨⟨hd,hc⟩,hcases⟩ := SpscQueue.State.produce_cases hq
    refine ⟨h.loop.push hq hc hr,?_,h.taken.setQueue hd hc,h.marked,h.counted,fun hf => ?_⟩
    · rcases hcases with ⟨hacc,hret,-⟩ | ⟨hacc,hret⟩
      · simp [hret,h.pushed,Worker.setQueue,hacc]
      · simp [hret,h.pushed,Worker.setQueue,hacc]
    · exact absurd (hr.symm.trans hf) (by decide)
  | stop =>
    simp only [Solo.next] at hn
    split at hn
    · rename_i hidle
      cases hn
      exact ⟨h.loop.stop,h.pushed,h.taken,h.marked,h.counted,fun _ => hidle⟩
    · cases hn
  | work inp =>
    obtain ⟨⟨sh,w⟩,hw,rfl⟩ := Option.map_eq_some_iff.mp hn
    have hstep := Worker.step_cases hw
    obtain ⟨hloop,hr,-⟩ := h.loop.step hw
    obtain ⟨-,hacc,hprod,-⟩ := Worker.step_queue hw
    refine ⟨hloop,h.pushed.trans hacc.symm,hstep.taken_step h.taken,hstep.marked h.marked,
      hstep.counted_step h.counted,fun hf => ?_⟩
    have hidle := h.stopped (hr ▸ hf)
    simpa only [Worker.unpushing,hprod] using hidle
  | others sh =>
    cases hn
    exact ⟨h.loop,h.pushed,h.taken,h.marked,h.counted,h.stopped⟩

theorem reachable_solo {i : ShardId} {s : Solo κ} (h : (soloSystem i).Reachable s) : s.Ok :=
  h.invariant (I := Solo.Ok)
    (fun s (hs : s.worker = startWorker ∧ s.pushed = []) => startWorker_ok hs.1 hs.2)
    (fun _ _ _ hi hn => hi.next hn)

/-- When `Loop` has left, all that was pushed is processed, in its order, and counted. -/
theorem exited_drained {i : ShardId} {s : Solo κ} (h : (soloSystem i).Reachable s)
    (hexit : s.worker.pc = .exited) :
    s.worker.processed.map Request.unstamped = s.pushed.map Request.unstamped ∧
    s.worker.queue.contents = [] ∧ s.worker.isProcessing = false ∧
    s.worker.processedCount = s.pushed.length.toUInt64 := by
  have hok := reachable_solo h
  have hspsc := hok.loop.spsc
  have hlen := hok.loop.drained (.inr hexit)
  have hall : s.worker.queue.delivered = s.worker.queue.accepted :=
    hspsc.prefix_.eq_of_length hlen
  have hprocessed : s.worker.processed.map Request.unstamped =
      s.pushed.map Request.unstamped := by
    have htaken := hok.taken
    rw [Worker.Taken,Worker.batchBuffer_eq (by simp [hexit]),hexit,hall,← hok.pushed] at htaken
    simpa [Loop.items] using htaken
  refine ⟨hprocessed,?_,by rw [hok.marked,hexit]; rfl,?_⟩
  · have hcontents := hspsc.contents_length
    exact List.eq_nil_of_length_eq_zero (by omega)
  · obtain ⟨n,hn,hcount⟩ := hok.counted
    have hsame : s.worker.processed.length = s.pushed.length := by
      simpa using congrArg List.length hprocessed
    rw [hexit] at hcount
    simp only [Loop.unprocessed,Loop.batchCount,Nat.add_zero] at hcount
    rw [hn,← hsame,hcount]

def soloStart : Solo Unit :=
  { shared := (initEngine 0 0 0 0 : State Unit).shared, worker := startWorker, pushed := [] }

/-- A sale is pushed while the worker looks at its queue, and `Stop` comes at once. -/
def soloRun : List (SoloAct Unit) :=
  [.work default,.work default,.enqueue (saleRequest 5)] ++ List.replicate 4 .produce ++ [.stop] ++
    List.replicate 24 (.work default)

def soloState : Solo Unit := ((soloSystem 0).exec soloStart soloRun).get (by decide +kernel)

theorem exited_drained_sale :
    soloState.worker.processed.map Request.unstamped = [saleRequest 5] ∧
    soloState.worker.queue.contents = [] ∧ soloState.worker.isProcessing = false ∧
    soloState.worker.processedCount = 1 := by
  have hinit : (soloSystem (0 : ShardId)).init soloStart := ⟨rfl,rfl⟩
  have hpushed : soloState.pushed = [saleRequest 5] := by decide +kernel
  have h := exited_drained (System.Reachable.exec hinit (by decide +kernel))
    (show soloState.worker.pc = .exited by decide +kernel)
  rw [← soloState,hpushed] at h
  exact h

end Flashsale.Engine
