import Flashsale.Idempotency
import Flashsale.Sources
import Mathlib
set_option autoImplicit false

/-!
`IsEngineIdle`, one step for each of its loads, beside the engine it looks at:
what it overlooks, and what is known when it overlooks nothing.
-/

namespace Flashsale.Engine
open Transition Transducer
variable {κ : Type}

/-- Where `IsEngineIdle` stands, with the locals of the `size()` it is in.
`taken` is history: how many requests were taken when `head_` was loaded. -/
inductive Scan where
  | notCalled
  | ingressHead (i : Nat)
  | ingressTail (i head : Nat)
  | workerHead (i : Nat)
  | workerTail (i head taken : Nat)
  | processing (i : Nat)
  | resultHead
  | resultTail (head : Nat)
  | ret (idle : Bool)
  deriving DecidableEq

structure ScanState (κ : Type) where
  engine : State κ
  scan : Scan

inductive ScanAct (κ : Type) where
  | engine (a : Act κ)
  | scan

/-- `SpscQueue::size()` from its loads of `head_` and of `tail_`. -/
def spscSize (cells head tail : Nat) : Nat :=
  if tail ≥ head then tail - head else cells - (head - tail)

def Scan.step (e : State κ) : Scan → Option Scan
  | .notCalled => some (.ingressHead 0)
  | .ingressHead i =>
      if h : i < kWorkerCount then some (.ingressTail i (e.shards ⟨i,h⟩).queue.dequeuePos)
      else some (.workerHead 0)
  | .ingressTail i head =>
      if h : i < kWorkerCount then
        if MpmcQueue.size head (e.shards ⟨i,h⟩).queue.enqueuePos > 0 then some (.ret false)
        else some (.ingressHead (i+1))
      else none
  | .workerHead i =>
      if h : i < kWorkerCount then
        let q := (e.shards ⟨i,h⟩).worker.queue
        some (.workerTail i q.head q.delivered.length)
      else some .resultHead
  | .workerTail i head _ =>
      if h : i < kWorkerCount then
        let q := (e.shards ⟨i,h⟩).worker.queue
        if spscSize q.cells head q.tail > 0 then some (.ret false) else some (.processing i)
      else none
  | .processing i =>
      if h : i < kWorkerCount then
        if (e.shards ⟨i,h⟩).worker.isProcessing then some (.ret false)
        else some (.workerHead (i+1))
      else none
  | .resultHead => some (.resultTail e.shared.resultQueue.dequeuePos)
  | .resultTail head =>
      some (.ret (MpmcQueue.size head e.shared.resultQueue.enqueuePos = 0))
  | .ret _ => none

def scanSystem [DecidableEq κ] : System (ScanState κ) (ScanAct κ) where
  init s := system.init s.engine ∧ s.scan = .notCalled
  next s
    | .engine a => (s.engine.next a).map fun e => { s with engine := e }
    | .scan => (s.scan.step s.engine).map fun p => { s with scan := p }

def Call.enqueues : Call → Bool
  | .requestTestRunning _ | .batchTestRunning _ | .warmUpTestRunning | .testFlag _ => true
  | .enqueue _ | .enqueuing _ | .count _ | .enterDrain _ | .resetBarrier _ => true
  | _ => false

/-- No call that enqueues overlaps or follows the start of `IsEngineIdle`. -/
def Undisturbed (s : ScanState κ) : ScanAct κ → Prop
  | .engine (.start _ f) =>
      match f with
      | .pollResult => True
      | _ => s.scan = .notCalled
  | .engine _ => True
  | .scan => s.scan = .notCalled → ∀ c, (s.engine.calls c).enqueues = false

def Worker.taking (w : Worker) : Bool :=
  match w.pc with
  | .dequeue _ => w.queue.returned ≠ []
  | .setBusy _ => true
  | _ => false

/-- The load to come goes by what it is to find: a worker's queue has the size 0
though its dispatcher has a request in hand, or though a whole round of the buffer
went through since `head_` was loaded; a worker that has taken a batch is not marked. -/
def Scan.overlooks (e : State κ) : Scan → Prop
  | .workerTail i head taken =>
      ∃ h : i < kWorkerCount,
        spscSize (e.shards ⟨i,h⟩).worker.queue.cells head (e.shards ⟨i,h⟩).worker.queue.tail = 0 ∧
          ((e.shards ⟨i,h⟩).hand ≠ [] ∨ taken + (e.shards ⟨i,h⟩).worker.queue.cells ≤
            (e.shards ⟨i,h⟩).worker.queue.accepted.length)
  | .processing i =>
      ∃ h : i < kWorkerCount, (e.shards ⟨i,h⟩).worker.isProcessing = false ∧
        (e.shards ⟨i,h⟩).worker.taking = true
  | _ => False

def Overlooks (s : ScanState κ) : ScanAct κ → Prop
  | .engine _ => False
  | .scan => s.scan.overlooks s.engine

instance (e : State κ) : ∀ p : Scan, Decidable (p.overlooks e)
  | .workerTail _ _ _ => inferInstanceAs (Decidable (∃ _ : _ < kWorkerCount, _))
  | .processing _ => inferInstanceAs (Decidable (∃ _ : _ < kWorkerCount, _))
  | .notCalled | .ingressHead _ | .ingressTail _ _ | .workerHead _ | .resultHead
  | .resultTail _ | .ret _ => isFalse id

instance (s : ScanState κ) : ∀ a, Decidable (Overlooks s a)
  | .engine _ => isFalse id
  | .scan => inferInstanceAs (Decidable (s.scan.overlooks s.engine))

def Loop.busy : Loop → Bool
  | .process _ _ | .flag _ _ _ _ | .notify _ _ _ | .publish _ _ _ => true
  | _ => false

def Loop.resting : Loop → Bool
  | .batch | .dequeue _ | .testRunning | .addCount _ | .exited => true
  | _ => false

section Worker
variable {w w' : Worker} {sh sh' : Shared κ} [DecidableEq κ] {i : ShardId} {inp : WorkerInput}

theorem WorkStep.marked (h : w.isProcessing = w.pc.busy) (hs : WorkStep w sh i inp sh' w') :
    w'.isProcessing = w'.pc.busy := by
  cases hs with
  | ask recheck pc _ _ => cases recheck <;> simpa [pc,Loop.busy] using h
  | empty recheck pc _ => cases recheck <;> simpa [pc,Loop.busy] using h
  | process pc step => cases step <;> simpa [pc,Loop.busy,Worker.decide,Worker.take] using h
  | @flag req res items count pc =>
    obtain ⟨wal,hwal⟩ := w.journal_eq req res inp.systemNow
    rw [hwal]
    simpa [pc,Loop.busy] using h
  | taken _ pc | consume _ pc | again pc | offer pc | published pc | refused pc | addCount pc =>
    simpa [pc,Loop.busy] using h
  | publish pc _ => exact h
  | _ => rfl

theorem WorkStep.resting (hr : w.pc.resting = true) (hb : w.batchBuffer = [])
    (hs : WorkStep w sh i inp sh' w') : w'.pc.resting = true ∧ w'.processed = w.processed := by
  cases hs with
  | empty recheck pc _ => cases recheck <;> exact ⟨rfl,rfl⟩
  | taken recheck pc ret nonempty =>
    rw [Worker.batchBuffer,pc,SpscQueue.State.returned,ret] at hb
    exact absurd hb nonempty
  | process pc step => simp [pc,Loop.resting] at hr
  | flag pc => simp [pc,Loop.resting] at hr
  | busy pc | idle pc | offer pc | published pc | refused pc | publish pc => simp [pc,Loop.resting] at hr
  | _ => exact ⟨rfl,rfl⟩

end Worker

/-- The shard has processed all that it accepted, results posted included. -/
structure Shard.Done (s : Shard κ) : Prop where
  processed : s.worker.processed.length = s.queue.tickets.length
  resting : s.worker.pc.resting = true

section Shards
variable {s : Shard κ}

theorem Fifo.lengths (h : Fifo s) : s.worker.processed.length + s.worker.batchBuffer.length +
    s.worker.queue.contents.length + s.hand.length = s.queue.takers.length ∧
    s.queue.takers.length ≤ s.queue.tickets.length := by
  have hpipe := congrArg List.length h.pipeline
  have hle := h.ingress.order
  simp only [payloads_length,List.length_append,List.length_drop,Shard.accepted,List.length_map] at hpipe
  exact ⟨by omega,hle⟩

theorem Fifo.empty_of_processed (h : Fifo s)
    (hp : s.worker.processed.length = s.queue.tickets.length) :
    s.queue.takers.length = s.queue.tickets.length ∧ s.hand = [] ∧
      s.worker.queue.contents = [] ∧ s.worker.batchBuffer = [] := by
  obtain ⟨hsum,hle⟩ := h.lengths
  exact ⟨by omega,List.eq_nil_of_length_eq_zero (by omega),List.eq_nil_of_length_eq_zero (by omega),
    List.eq_nil_of_length_eq_zero (by omega)⟩

theorem Fifo.done_of_unmarked (hf : Fifo s)
    (hmark : s.worker.isProcessing = s.worker.pc.busy) (hidle : s.worker.isProcessing = false)
    (ht : ¬ s.worker.taking = true)
    (hdel : s.worker.queue.delivered.length = s.queue.tickets.length) : s.Done := by
  have hpay := congrArg List.length hf.processing
  simp only [List.length_append,payloads_length] at hpay
  rw [hidle] at hmark
  suffices hb : s.worker.batchBuffer = [] ∧ s.worker.pc.resting = true by
    rw [hb.1,List.length_nil] at hpay
    exact ⟨by omega,hb.2⟩
  unfold Worker.taking at ht
  unfold Worker.batchBuffer
  cases hpc : s.worker.pc with
  | dequeue recheck =>
    simp only [hpc,decide_eq_true_eq,not_not] at ht
    exact ⟨ht,rfl⟩
  | setBusy items =>
    simp [hpc] at ht
  | batch | testRunning | addCount count | exited => exact ⟨rfl,rfl⟩
  | _ => simp [hpc,Loop.busy] at hmark

/-- The queue is empty where the loads of its indices agree, unless a whole round went by. -/
theorem Fifo.delivered_of_size {head taken : Nat} (hf : Fifo s)
    (htickets : s.queue.takers.length = s.queue.tickets.length)
    (hhead : head = taken % (16384+1)) (hle : taken ≤ s.worker.queue.delivered.length)
    (hsize : spscSize s.worker.queue.cells head s.worker.queue.tail = 0) (hhand : s.hand = [])
    (hround : ¬ taken + s.worker.queue.cells ≤ s.worker.queue.accepted.length) :
    s.worker.queue.delivered.length = s.queue.tickets.length := by
  obtain ⟨hsum,-⟩ := hf.lengths
  have hpay := congrArg List.length hf.processing
  have hcont := hf.spsc.contents_length
  have hroom := hf.spsc.room
  simp only [List.length_append,payloads_length] at hpay
  rw [hhand,List.length_nil] at hsum
  have hcells := hf.spsc.cells
  have htail := hf.spsc.tail
  rw [hcells] at hsize hround
  have hlt : taken % (16384+1) < 16384+1 := Nat.mod_lt _ (by omega)
  have hmod : taken % (16384+1) = s.worker.queue.accepted.length % (16384+1) := by
    rw [hhead,htail] at hsize
    unfold spscSize at hsize
    split at hsize <;> omega
  omega

variable [DecidableEq κ] {e e' : State κ} {i : ShardId} {a : Act κ} {s' : Shard κ}

theorem ShardStep.takers (hs : ShardStep e i a s') :
    (e.shards i).queue.takers <+: s'.queue.takers := by
  cases hs with
  | enqueue _ _ _ _ hn | attempt _ _ _ _ hn | call _ _ _ _ _ hn | dequeue _ _ _ _ hn =>
    exact MpmcQueue.State.next_takers hn
  | _ => exact List.prefix_refl _

theorem ShardStep.delivered (hs : ShardStep e i a s') :
    (e.shards i).worker.queue.delivered <+: s'.worker.queue.delivered := by
  cases hs with
  | pop _ _ _ _ _ _ hn | retry _ _ _ _ _ hn | push _ _ _ _ hn => exact SpscQueue.State.next_delivered hn
  | work hn =>
    rcases (Worker.step_queue hn).1 with hq | ⟨a,hq⟩
    · rw [hq]
    · exact SpscQueue.State.next_delivered hq
  | _ => exact List.prefix_refl _

theorem ShardStep.tickets_of_quiet (hf : Fifo (e.shards i)) (hq : ∀ c, (e.calls c).enqueues = false)
    (hs : ShardStep e i a s') : s'.queue.tickets = (e.shards i).queue.tickets := by
  cases hs.flow hf with
  | quiet tickets _ => exact tickets
  | @accept c _ _ _ _ _ _ pc =>
    have hc := hq c
    simp [pc,Call.enqueues] at hc
  | process _ queue _ => rw [queue]

theorem ShardStep.done (hf : Fifo (e.shards i)) (hd : (e.shards i).Done)
    (ht : s'.queue.tickets = (e.shards i).queue.tickets) (hs : ShardStep e i a s') : s'.Done := by
  cases hs with
  | work hn =>
    obtain ⟨hr,hp⟩ := (Worker.step_cases hn).resting hd.resting
      (hf.empty_of_processed hd.processed).2.2.2
    exact ⟨by rw [hp,ht]; exact hd.processed,hr⟩
  | _ => exact ⟨by rw [ht]; exact hd.processed,hd.resting⟩

theorem reachable_marked (h : system.Reachable e) (i : ShardId) :
    (e.shards i).worker.isProcessing = (e.shards i).worker.pc.busy := by
  refine h.invariant (I := fun e => ∀ i, (e.shards i).worker.isProcessing =
    (e.shards i).worker.pc.busy) ?_ ?_ i
  · rintro e ⟨_,_,_,_,rfl⟩ i
    rfl
  · intro e a e' ih hn i
    rcases State.next_shard hn i with hs | hs
    · rw [hs]; exact ih i
    · have hi := ih i
      generalize e'.shards i = s' at hs
      cases hs with
      | work hw => exact (Worker.step_cases hw).marked hi
      | _ => exact hi

end Shards

def Scan.pastIngress : Scan → Nat → Prop
  | .notCalled, _ | .ret false, _ => False
  | .ingressHead k, i | .ingressTail k _, i => i < k
  | _, _ => True

def Scan.pastWorker : Scan → Nat → Prop
  | .workerHead k, i | .workerTail k _ _, i | .processing k, i => i < k
  | .resultHead, _ | .resultTail _, _ | .ret true, _ => True
  | _, _ => False

/-- What `IsEngineIdle` knows of the places it has looked at. -/
structure Looked (s : ScanState κ) : Prop where
  quiet : s.scan ≠ .notCalled → ∀ c, (s.engine.calls c).enqueues = false
  ingress : ∀ i : ShardId, s.scan.pastIngress i →
    (s.engine.shards i).queue.takers.length = (s.engine.shards i).queue.tickets.length
  ingressHead : ∀ (i : ShardId) head, s.scan = .ingressTail i head →
    head ≤ (s.engine.shards i).queue.takers.length
  workerHead : ∀ (i : ShardId) head taken, s.scan = .workerTail i head taken →
    head = taken % (16384+1) ∧ taken ≤ (s.engine.shards i).worker.queue.delivered.length
  delivered : ∀ i : ShardId, s.scan = .processing i →
    (s.engine.shards i).worker.queue.delivered.length = (s.engine.shards i).queue.tickets.length
  workers : ∀ i : ShardId, s.scan.pastWorker i → (s.engine.shards i).Done
  resultHead : ∀ head, s.scan = .resultTail head →
    head ≤ s.engine.shared.resultQueue.takers.length
  results : s.scan = .ret true →
    s.engine.shared.resultQueue.takers.length = s.engine.shared.resultQueue.tickets.length

section Engine
variable [DecidableEq κ] {e e' : State κ} {a : Act κ} {c : κ} {now : Int64} {spurious : Bool}

theorem ClientStep.quiet (h : ClientStep e c now spurious e') (hc : (e.calls c).enqueues = false) :
    (e'.calls c).enqueues = false := by
  have hset : ∀ {x : State κ} {p : Call}, (p.enqueues → (e.calls c).enqueues) →
      ((x.setCall c p).calls c).enqueues = false := by
    intro x p hp
    rw [State.setCall_calls_self]
    exact eq_false_of_ne_true fun hq => by simp [hp hq] at hc
  cases h with
  | access pc todo next | poll pc next => exact hc
  | _ => refine hset ?_; simp_all [Call.enqueues]

theorem State.next_quiet (hq : ∀ c, (e.calls c).enqueues = false)
    (ha : ∀ c f, a = .start c f → f = .pollResult) (hn : e.next a = some e') (c : κ) :
    (e'.calls c).enqueues = false := by
  rcases State.next_calls hn c with he | ⟨f,hf,hidle,hs⟩ | ⟨now,spurious,-,hs⟩
  · rw [he]
    exact hq c
  · obtain rfl := ha c f hf
    simp only [State.start,hidle] at hs
    obtain ⟨q,-,rfl⟩ := Option.map_eq_some_iff.mp hs
    rw [State.setCall_calls_self]
    rfl
  · exact hs.quiet (hq c)

theorem State.next_result_takers (hn : e.next a = some e') :
    e.shared.resultQueue.takers <+: e'.shared.resultQueue.takers := by
  rcases State.next_results hn with hq | hq
  · rw [hq]
  · obtain ⟨b,-,hb,-⟩ := hq.cases
    exact MpmcQueue.State.next_takers hb

theorem State.next_result_tickets (hreach : system.Reachable e)
    (hd : ∀ i, (e.shards i).worker.pc.resting = true) (hn : e.next a = some e') :
    e'.shared.resultQueue.tickets = e.shared.resultQueue.tickets := by
  rcases State.next_results hn with hq | hq
  · rw [hq]
  · generalize e'.shared.resultQueue = q at hq
    cases hq with
    | @offer i _ _ _ _ _ pc next | @publish i _ _ _ _ _ pc next =>
      have hr := hd i
      simp [pc,Loop.resting] at hr
    | ask idle next =>
      obtain ⟨-,rfl⟩ := MpmcQueue.State.call_eq next
      rfl
    | poll polling next =>
      cases (MpmcQueue.State.step_effect next).2.2 with
      | quiet ht _ _ => exact ht
      | took _ _ _ ht _ => exact ht
      | won data hi _ _ =>
        obtain ⟨_,_,hc⟩ := reachable_posters hreach _ _ hi
        cases hc

variable {s s' : ScanState κ}

theorem Looked.engine (h : Looked s) (hreach : system.Reachable s.engine)
    (ha : Undisturbed s (.engine a)) (hn : s.engine.next a = some e') :
    Looked { s with engine := e' } := by
  by_cases hcalled : s.scan = .notCalled
  · have hpast : ∀ i, ¬ s.scan.pastIngress i ∧ ¬ s.scan.pastWorker i := by
      rw [hcalled]
      exact fun _ => ⟨id,id⟩
    refine ⟨fun hne => absurd hcalled hne,fun i hi => absurd hi (hpast i).1,?_,?_,?_,
      fun i hi => absurd hi (hpast i).2,?_,?_⟩ <;> simp [hcalled]
  have hquiet := h.quiet hcalled
  have hf := reachable_fifo hreach
  have hf' := reachable_fifo (hreach.step hn)
  have hshard : ∀ i, (e'.shards i).queue.tickets = (s.engine.shards i).queue.tickets ∧
      (s.engine.shards i).queue.takers <+: (e'.shards i).queue.takers ∧
      (s.engine.shards i).worker.queue.delivered <+: (e'.shards i).worker.queue.delivered ∧
      ((s.engine.shards i).Done → (e'.shards i).Done) := by
    intro i
    rcases State.next_shard hn i with hs | hs
    · rw [hs]
      exact ⟨rfl,List.prefix_refl _,List.prefix_refl _,id⟩
    · have ht := hs.tickets_of_quiet (hf i) hquiet
      exact ⟨ht,hs.takers,hs.delivered,fun hd => hs.done (hf i) hd ht⟩
  have hresults := (State.next_result_takers hn).length_le
  have hstart : ∀ c f, a = .start c f → f = .pollResult := by
    rintro c f rfl
    cases f <;> first | rfl | exact absurd ha hcalled
  refine ⟨fun _ => State.next_quiet hquiet hstart hn,fun i hi => ?_,fun i head hi => ?_,
    fun i head taken hi => ?_,fun i hi => ?_,fun i hi => (hshard i).2.2.2 (h.workers i hi),
    fun head hi => (h.resultHead head hi).trans hresults,fun hi => ?_⟩
  · obtain ⟨ht,htk,-⟩ := hshard i
    have hall := h.ingress i hi
    have hle := (hf' i).ingress.order
    have := htk.length_le
    change (e'.shards i).queue.takers.length = (e'.shards i).queue.tickets.length
    rw [ht] at hle ⊢
    omega
  · exact (h.ingressHead i head hi).trans (hshard i).2.1.length_le
  · obtain ⟨hmod,hle⟩ := h.workerHead i head taken hi
    exact ⟨hmod,hle.trans (hshard i).2.2.1.length_le⟩
  · obtain ⟨ht,-,hdel,-⟩ := hshard i
    have hall := h.delivered i hi
    have := hdel.length_le
    obtain ⟨hsum,hle⟩ := (hf' i).lengths
    have hpay := congrArg List.length (hf' i).processing
    simp only [List.length_append,payloads_length] at hpay
    change (e'.shards i).worker.queue.delivered.length = (e'.shards i).queue.tickets.length
    rw [ht] at hle ⊢
    omega
  · have hall := h.results hi
    have hdone : ∀ i, (s.engine.shards i).Done := fun i =>
      h.workers i (by rw [hi]; trivial)
    have ht := State.next_result_tickets hreach (fun i => (hdone i).resting) hn
    have hle := (reachable_results (hreach.step hn)).inv.order
    rw [ht] at hle ⊢
    change e'.shared.resultQueue.takers.length = s.engine.shared.resultQueue.tickets.length
    omega

/-- A load of `IsEngineIdle` that overlooks nothing. -/
theorem Looked.scan {p : Scan} (h : Looked s) (hreach : system.Reachable s.engine)
    (ha : Undisturbed s .scan) (hov : ¬ Overlooks s .scan) (hn : s.scan.step s.engine = some p) :
    Looked { s with scan := p } := by
  have hf := reachable_fifo hreach
  have hquiet : ∀ c, (s.engine.calls c).enqueues = false := by
    by_cases hcalled : s.scan = .notCalled
    · exact ha hcalled
    · exact h.quiet hcalled
  have hstop : Looked { s with scan := .ret false } :=
    ⟨fun _ => hquiet,nofun,nofun,nofun,nofun,nofun,nofun,nofun⟩
  unfold Scan.step at hn
  cases hscan : s.scan with
  | notCalled =>
    simp only [hscan,Option.some.injEq] at hn
    subst hn
    exact ⟨fun _ => hquiet,nofun,nofun,nofun,nofun,nofun,nofun,nofun⟩
  | ingressHead k =>
    have hpast : ∀ i : ShardId, i.val < k →
        (s.engine.shards i).queue.takers.length = (s.engine.shards i).queue.tickets.length :=
      fun i hi => h.ingress i (by rw [hscan]; exact hi)
    simp only [hscan] at hn
    split at hn
    · cases hn
      refine ⟨fun _ => hquiet,hpast,?_,nofun,nofun,nofun,nofun,nofun⟩
      rintro i head ⟨⟩
      exact (hf i).ingress.dequeuePos.le
    · rename_i hk
      cases hn
      exact ⟨fun _ => hquiet,fun i _ => hpast i (by have := i.isLt; omega),nofun,nofun,nofun,nofun,
        nofun,nofun⟩
  | ingressTail k head =>
    have hpast : ∀ i : ShardId, i.val < k →
        (s.engine.shards i).queue.takers.length = (s.engine.shards i).queue.tickets.length :=
      fun i hi => h.ingress i (by rw [hscan]; exact hi)
    simp only [hscan] at hn
    split at hn
    · rename_i hk
      split at hn
      · cases hn
        exact hstop
      · rename_i hsize
        cases hn
        refine ⟨fun _ => hquiet,fun i hi => ?_,nofun,nofun,nofun,nofun,nofun,nofun⟩
        rcases Nat.lt_succ_iff_lt_or_eq.mp (show i.val < k + 1 from hi) with hi | hi
        · exact hpast i hi
        · subst hi
          have hle := h.ingressHead i head hscan
          have horder := (hf i).ingress.order
          have hE : (s.engine.shards i).queue.enqueuePos = (s.engine.shards i).queue.tickets.length :=
            (hf i).ingress.enqueuePos
          change (s.engine.shards i).queue.takers.length = (s.engine.shards i).queue.tickets.length
          simp only [Fin.eta,MpmcQueue.size,SizeT.val_nat] at hsize
          split at hsize <;> omega
    · cases hn
  | workerHead k =>
    have hpast : ∀ i : ShardId, i.val < k → (s.engine.shards i).Done :=
      fun i hi => h.workers i (by rw [hscan]; exact hi)
    have hingress := fun i => h.ingress i (by rw [hscan]; trivial)
    simp only [hscan] at hn
    split at hn
    · cases hn
      refine ⟨fun _ => hquiet,fun i _ => hingress i,nofun,?_,nofun,hpast,nofun,nofun⟩
      rintro i head taken ⟨⟩
      exact ⟨(hf i).spsc.head,Nat.le_refl _⟩
    · rename_i hk
      cases hn
      exact ⟨fun _ => hquiet,fun i _ => hingress i,nofun,nofun,nofun,
        fun i _ => hpast i (by have := i.isLt; omega),nofun,nofun⟩
  | workerTail k head taken =>
    have hingress := fun i => h.ingress i (by rw [hscan]; trivial)
    simp only [hscan] at hn
    split at hn
    · rename_i hk
      split at hn
      · cases hn
        exact hstop
      · rename_i hsize
        cases hn
        refine ⟨fun _ => hquiet,fun i _ => hingress i,nofun,nofun,?_,
          fun i hi => h.workers i (by rw [hscan]; exact hi),nofun,nofun⟩
        rintro i ⟨⟩
        obtain ⟨hhead,hle⟩ := h.workerHead i head taken hscan
        simp only [Overlooks,Scan.overlooks,hscan,Fin.eta,not_exists,not_and,not_or,not_not] at hov hsize
        have hzero := Nat.eq_zero_of_not_pos hsize
        obtain ⟨hhand,hround⟩ := hov i.isLt hzero
        exact (hf i).delivered_of_size (hingress i) hhead hle hzero hhand hround
    · cases hn
  | processing k =>
    have hingress := fun i => h.ingress i (by rw [hscan]; trivial)
    simp only [hscan] at hn
    split at hn
    · rename_i hk
      split at hn
      · cases hn
        exact hstop
      · rename_i hidle
        cases hn
        refine ⟨fun _ => hquiet,fun i _ => hingress i,nofun,nofun,nofun,fun i hi => ?_,nofun,nofun⟩
        rcases Nat.lt_succ_iff_lt_or_eq.mp (show i.val < k + 1 from hi) with hi | hi
        · exact h.workers i (by rw [hscan]; exact hi)
        · subst hi
          have hfalse : (s.engine.shards i).worker.isProcessing = false := by simpa using hidle
          simp only [Overlooks,Scan.overlooks,hscan,not_exists,not_and] at hov
          exact (hf i).done_of_unmarked (reachable_marked hreach i) hfalse (hov i.isLt hfalse)
            (h.delivered i hscan)
    · cases hn
  | resultHead =>
    have hingress := fun i => h.ingress i (by rw [hscan]; trivial)
    have hworkers := fun i => h.workers i (by rw [hscan]; trivial)
    simp only [hscan,Option.some.injEq] at hn
    subst hn
    refine ⟨fun _ => hquiet,fun i _ => hingress i,nofun,nofun,nofun,fun i _ => hworkers i,?_,nofun⟩
    rintro head ⟨⟩
    exact (reachable_results hreach).inv.dequeuePos.le
  | resultTail head =>
    have hworkers := fun i => h.workers i (by rw [hscan]; trivial)
    simp only [hscan,Option.some.injEq] at hn
    subst hn
    by_cases hsize : MpmcQueue.size head s.engine.shared.resultQueue.enqueuePos = 0
    · have hingress := fun i => h.ingress i (by rw [hscan]; trivial)
      have hle := h.resultHead head hscan
      have horder := (reachable_results hreach).inv.order
      have hE : s.engine.shared.resultQueue.enqueuePos = s.engine.shared.resultQueue.tickets.length :=
        (reachable_results hreach).inv.enqueuePos
      simp only [hsize,decide_true]
      refine ⟨fun _ => hquiet,fun i _ => hingress i,nofun,nofun,nofun,fun i _ => hworkers i,nofun,
        fun _ => ?_⟩
      simp only [MpmcQueue.size,SizeT.val_nat] at hsize
      change s.engine.shared.resultQueue.takers.length = s.engine.shared.resultQueue.tickets.length
      split at hsize <;> omega
    · simp only [hsize,decide_false]
      exact hstop
  | ret idle => simp [hscan] at hn

/-- Every accepted request is processed and every result polled; no place holds one. -/
structure Finished (e : State κ) : Prop where
  processed : ∀ i, payloads (e.shards i).worker.processed = payloads (e.shards i).accepted
  ingress : ∀ i, (e.shards i).queue.dequeuePos = (e.shards i).queue.enqueuePos
  hand : ∀ i, (e.shards i).hand = []
  spsc : ∀ i, (e.shards i).worker.queue.contents = []
  batch : ∀ i, (e.shards i).worker.batchBuffer = []
  posted : ∀ i, List.Forall₂ Verdict.Of (verdicts (payloads (e.shards i).worker.processed))
    (postedBy e.shared.resultQueue i)
  results : e.shared.resultQueue.dequeuePos = e.shared.resultQueue.enqueuePos
  polled : ∀ (t : Nat) x, e.shared.resultQueue.tickets[t]? = some x →
    ∃ c, e.shared.resultQueue.takers[t]? = some (.poller c)

theorem Looked.finished (h : Looked s) (hreach : system.Reachable s.engine)
    (hret : s.scan = .ret true) : Finished s.engine := by
  have hdone : ∀ i, (s.engine.shards i).Done := fun i => h.workers i (by rw [hret]; trivial)
  have hf := reachable_fifo hreach
  have hempty := fun i => (hf i).empty_of_processed (hdone i).processed
  have hr := reachable_results hreach
  refine ⟨fun i => ?_,fun i => (hf i).positions.mpr (hempty i).1,fun i => (hempty i).2.1,
    fun i => (hempty i).2.2.1,fun i => (hempty i).2.2.2,fun i => ?_,?_,fun t x ht => ?_⟩
  · have hpre := Fifo.processed_prefix (hf i)
    refine hpre.eq_of_length ?_
    simpa [Shard.accepted] using (hdone i).processed
  · have hposted := (hr.posting i).posted
    have hnone : (s.engine.shards i).worker.unposted s.engine.shared.resultQueue i = none := by
      have hrest := (hdone i).resting
      unfold Worker.unposted
      cases hpc : (s.engine.shards i).worker.pc <;> simp_all [Loop.resting]
    simpa [hnone] using hposted
  · have hE : s.engine.shared.resultQueue.enqueuePos = s.engine.shared.resultQueue.tickets.length :=
      hr.inv.enqueuePos
    have hD : s.engine.shared.resultQueue.dequeuePos = s.engine.shared.resultQueue.takers.length :=
      hr.inv.dequeuePos
    rw [hE,hD,h.results hret]
  · have hlt := (List.getElem?_eq_some_iff.mp ht).1
    rw [← h.results hret] at hlt
    have hget := List.getElem?_eq_getElem hlt
    obtain ⟨pos,hpos,-⟩ := hr.takers t _ hget
    obtain ⟨c,hc⟩ := hr.pollers (s.engine.shared.resultQueue.takers[t]) (by
      cases hpc : s.engine.shared.resultQueue.pc s.engine.shared.resultQueue.takers[t] <;>
        simp_all [MpmcQueue.Pc.dequeued,MpmcQueue.Pc.dequeuing])
    exact ⟨c,by rw [hget,hc]⟩

/-- `IsEngineIdle` is right when no load of it overlooks a request on its way. -/
theorem idle_sound {s₀ : ScanState κ} {as : List (ScanAct κ)} (hi : scanSystem.init s₀)
    (hr : scanSystem.Run s₀ as s) (hq : scanSystem.Along Undisturbed s₀ as)
    (hov : scanSystem.Along (fun s a => ¬ Overlooks s a) s₀ as) (hret : s.scan = .ret true) :
    Finished s.engine := by
  have hinv : system.Reachable s.engine ∧ Looked s := by
    refine hr.invariant_along (I := fun s => system.Reachable s.engine ∧ Looked s) ?_ (hq.and hov) ?_
    · rintro s (a | _) s' ⟨hreach,h⟩ ⟨ha,hov⟩ hn
      · obtain ⟨e',he,rfl⟩ := Option.map_eq_some_iff.mp hn
        exact ⟨hreach.step he,h.engine hreach ha he⟩
      · obtain ⟨p,hp,rfl⟩ := Option.map_eq_some_iff.mp hn
        exact ⟨hreach,h.scan hreach ha hov hp⟩
    · obtain ⟨e,scan⟩ := s₀
      obtain ⟨he,rfl⟩ : system.init e ∧ scan = .notCalled := hi
      exact ⟨.of_init he,⟨fun hne => absurd rfl hne,nofun,nofun,nofun,nofun,nofun,nofun,nofun⟩⟩
  exact hinv.2.finished hinv.1 hret

theorem idle_of_not_started {as : List (Act κ)} (hr : system.Run e as e')
    (hc : e.calls c = .idle) (hs : ∀ f, .start c f ∉ as) : e'.calls c = .idle := by
  induction hr with
  | nil => exact hc
  | @cons e m e' a as hn _ ih =>
    refine ih ?_ fun f hf => hs f (by simp [hf])
    rcases State.next_calls hn c with he | ⟨f,rfl,-,-⟩ | ⟨now,spurious,rfl,-⟩
    · exact he.trans hc
    · exact absurd (by simp) (hs f)
    · simp [system,State.next,State.client,hc] at hn

theorem undisturbed_last {as : List (Act κ)} (n : Nat) (hr : system.Run e as e')
    (hq : ∀ c, (e'.calls c).enqueues = false) :
    scanSystem.Along Undisturbed ⟨e,.notCalled⟩ (as.map .engine ++ List.replicate n .scan) := by
  induction hr with
  | nil e =>
    have hscan : ∀ p, scanSystem.Along Undisturbed ⟨e,p⟩ (List.replicate n .scan) := by
      induction n with
      | zero => exact fun _ => trivial
      | succ n ih =>
        refine fun p => ⟨fun _ => hq,fun t ht => ?_⟩
        obtain ⟨p',-,rfl⟩ := Option.map_eq_some_iff.mp ht
        exact ih p'
    exact hscan _
  | @cons e m e' a as hn _ ih =>
    refine ⟨?_,fun t ht => ?_⟩
    · cases a with
      | start c f => cases f <;> trivial
      | _ => trivial
    · obtain ⟨m',hm,rfl⟩ := Option.map_eq_some_iff.mp ht
      obtain rfl := Option.some.inj (hn.symm.trans hm)
      exact ih hq

end Engine

/-- Call 0 enqueues request 5 and returns, and `steps` follow before `IsEngineIdle` is called. -/
def scanRun (steps : List (Act Nat)) : List (ScanAct Nat) :=
  (acceptRun ++ steps).map .engine ++ List.replicate 15 .scan

def pollSteps : List (Act Nat) :=
  List.replicate 12 (.dispatch 1 3 4 false) ++ List.replicate 24 (.work 1 default) ++
    .start 1 .pollResult :: List.replicate 6 (.client 1 4 false)

def handSteps : List (Act Nat) := List.replicate 6 (.dispatch 1 3 4 false)

def batchSteps : List (Act Nat) :=
  List.replicate 12 (.dispatch 1 3 4 false) ++ List.replicate 6 (.work 1 default)

def stepsState (steps : List (Act Nat))
    (h : (system.exec (initEngine 0 0 0 0) (acceptRun ++ steps)).isSome) : State Nat :=
  (system.exec (initEngine 0 0 0 0) (acceptRun ++ steps)).get h

def polledScan : ScanState Nat :=
  (scanSystem.exec ⟨initEngine 0 0 0 0,.notCalled⟩ (scanRun pollSteps)).get (by decide +kernel)

def handScan : ScanState Nat :=
  (scanSystem.exec ⟨initEngine 0 0 0 0,.notCalled⟩ (scanRun handSteps)).get (by decide +kernel)

def batchScan : ScanState Nat :=
  (scanSystem.exec ⟨initEngine 0 0 0 0,.notCalled⟩ (scanRun batchSteps)).get (by decide +kernel)

theorem undisturbed_scanRun {steps : List (Act Nat)}
    (h : (system.exec (initEngine 0 0 0 0) (acceptRun ++ steps)).isSome)
    (hs : ∀ c f, .start c f ∈ steps → c = 1) (h₀ : ((stepsState steps h).calls 0).enqueues = false)
    (h₁ : ((stepsState steps h).calls 1).enqueues = false) :
    scanSystem.Along Undisturbed ⟨initEngine 0 0 0 0,.notCalled⟩ (scanRun steps) := by
  have hr : system.Run (initEngine 0 0 0 0) (acceptRun ++ steps) (stepsState steps h) :=
    System.run_of_exec (Option.some_get h).symm
  refine undisturbed_last 15 hr fun c => ?_
  by_cases hc : c = 0 ∨ c = 1
  · rcases hc with rfl | rfl
    · exact h₀
    · exact h₁
  · rw [idle_of_not_started hr rfl fun f hf => ?_]
    · rfl
    · rcases List.mem_append.mp hf with hf | hf
      · simp [acceptRun] at hf
        exact hc (.inl hf.1)
      · exact hc (.inr (hs c f hf))

theorem idle_sound_polled : polledScan.scan = .ret true ∧
    payloads (polledScan.engine.shards 1).worker.processed = [(123,1,5,5)] ∧
    Finished polledScan.engine := by
  have hret : polledScan.scan = .ret true := by decide +kernel
  have hinit : scanSystem.init (⟨initEngine 0 0 0 0,.notCalled⟩ : ScanState Nat) :=
    ⟨⟨0,0,0,0,rfl⟩,rfl⟩
  have hquiet := @undisturbed_scanRun pollSteps (by decide +kernel)
    (by simp [pollSteps]) (by decide +kernel) (by decide +kernel)
  exact ⟨hret,by decide +kernel,
    idle_sound hinit (System.run_of_exec (Option.some_get _).symm) hquiet (by decide +kernel) hret⟩

/-- `IsEngineIdle` returns 1 while a dispatcher has the request in hand, and while
a worker has it in a batch. -/
theorem idle_overlooks :
    (scanSystem.Run ⟨initEngine 0 0 0 0,.notCalled⟩ (scanRun handSteps) handScan ∧
      scanSystem.Along Undisturbed ⟨initEngine 0 0 0 0,.notCalled⟩ (scanRun handSteps) ∧
      handScan.scan = .ret true ∧ (handScan.engine.shards 1).hand.length = 1 ∧
      ¬ Finished handScan.engine) ∧
    scanSystem.Run ⟨initEngine 0 0 0 0,.notCalled⟩ (scanRun batchSteps) batchScan ∧
      scanSystem.Along Undisturbed ⟨initEngine 0 0 0 0,.notCalled⟩ (scanRun batchSteps) ∧
      batchScan.scan = .ret true ∧ (batchScan.engine.shards 1).worker.batchBuffer.length = 1 ∧
      ¬ Finished batchScan.engine := by
  have hhand : (handScan.engine.shards 1).hand.length = 1 := by decide +kernel
  have hbatch : (batchScan.engine.shards 1).worker.batchBuffer.length = 1 := by decide +kernel
  refine ⟨⟨System.run_of_exec (Option.some_get _).symm,
    undisturbed_scanRun (by decide +kernel) (by simp [handSteps]) (by decide +kernel)
      (by decide +kernel),by decide +kernel,hhand,fun h => ?_⟩,
    System.run_of_exec (Option.some_get _).symm,
    undisturbed_scanRun (by decide +kernel) (by simp [batchSteps]) (by decide +kernel)
      (by decide +kernel),by decide +kernel,hbatch,fun h => ?_⟩
  · have hnil := h.hand 1
    rw [hnil] at hhand
    cases hhand
  · have hnil := h.batch 1
    rw [hnil] at hbatch
    cases hbatch

end Flashsale.Engine
