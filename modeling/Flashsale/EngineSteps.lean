import Flashsale.Engine
import Flashsale.MpmcFrame
import Flashsale.SpscFrame
import Flashsale.WorkerSteps
set_option autoImplicit false

namespace Flashsale.Engine
variable {κ : Type}

/-- The fields of a request that no stage may change. -/
def Request.payload (req : Request) : Int64 × Int32 × UInt64 × UInt64 :=
  (req.skuId,req.qty,req.guestId,req.requestId)

@[simp] theorem Push.stamp_payload (p : Push) (req : Request) (now : Int64) :
    (p.stamp req now).payload = req.payload := by
  unfold Push.stamp
  split <;> rfl

def payloads (reqs : List Request) : List (Int64 × Int32 × UInt64 × UInt64) :=
  reqs.map Request.payload

@[simp] theorem payloads_nil : payloads [] = [] := rfl

@[simp] theorem payloads_append (l m : List Request) :
    payloads (l ++ m) = payloads l ++ payloads m := List.map_append

@[simp] theorem payloads_length (l : List Request) : (payloads l).length = l.length :=
  List.length_map ..

def Loop.items : Loop → List Request
  | .setBusy items | .process items _ | .flag _ _ items _ => items
  | .notify _ items _ | .publish _ items _ => items
  | .batch | .dequeue _ | .testRunning | .addCount _ | .exited => []

def Worker.batchBuffer (w : Worker) : List Request :=
  match w.pc with
  | .dequeue _ => w.queue.returned
  | pc => pc.items

theorem Worker.batchBuffer_eq {w : Worker} (h : ∀ r, w.pc ≠ .dequeue r) :
    w.batchBuffer = w.pc.items := by
  unfold Worker.batchBuffer
  split
  · rename_i r hr
    exact absurd hr (h r)
  · rfl

def Worker.Processing (w : Worker) : Prop :=
  payloads w.processed ++ payloads w.batchBuffer = payloads w.queue.delivered

section Worker
variable {w w' : Worker} {sh sh' : Shared κ}

inductive Decision (w w' : Worker) (sh sh' : Shared κ) (req : Request) : Prop where
  | passed (inventory : w'.inventory = w.inventory) (decided : w'.decided = w.decided)
      (sold : sh'.soldTotal = sh.soldTotal)
  | decided (nonzero : req.requestId ≠ 0) (limit : req.requestId ≤ benchmarkLimit)
      (inventory : w'.inventory = (w.deduct req).2.inventory)
      (decided : w'.decided = w.decided ++ [{ req.result with status := (w.deduct req).1 }])
      (sold : sh'.soldTotal = if (w.deduct req).1 = 1 then
        sh.soldTotal + req.qty.toInt64.toUInt64 else sh.soldTotal)

theorem ProcessStep.frame {req : Request} {items : List Request} {count : Nat}
    {uninit : CSeckillResult} (h : ProcessStep w sh req items count uninit sh' w') :
    w'.queue = w.queue ∧ w'.running = w.running ∧ w'.processed = w.processed ++ [req] ∧
      w'.pc.items = items ∧ (∀ r, w'.pc ≠ .dequeue r) ∧ w'.pc ≠ .exited ∧
      Decision w w' sh sh' req := by
  cases h with
  | decided id limit _ => exact ⟨rfl,rfl,rfl,rfl,by simp [Worker.decide,Worker.take],
      by simp [Worker.decide,Worker.take],.decided id limit rfl rfl rfl⟩
  | warmUp _ | barrier _ | benchmark _ _ | duplicate _ _ _ => exact ⟨rfl,rfl,rfl,rfl,
      by simp [Worker.take],by simp [Worker.take],.passed rfl rfl rfl⟩

variable [DecidableEq κ] {i : ShardId} {inp : WorkerInput}

/-- A worker's step is at most one step of its queue's consumer, and loses no request. -/
theorem Worker.step_queue (h : w.step sh i inp = some (sh',w')) :
    (w'.queue = w.queue ∨ ∃ a, w.queue.next a = some w'.queue) ∧
      w'.queue.accepted = w.queue.accepted ∧ w'.queue.producer = w.queue.producer ∧
      (w.Processing → w'.Processing) := by
  cases Worker.step_cases h with
  | @ask q recheck pc _ next =>
    refine ⟨.inr ⟨_,next⟩,?_⟩
    obtain rfl := SpscQueue.State.callConsumer_eq next
    refine ⟨rfl,rfl,?_⟩
    cases recheck <;>
      simp [Worker.Processing,Worker.batchBuffer,pc,Loop.items,SpscQueue.State.returned]
  | empty recheck pc ret =>
    refine ⟨.inl rfl,rfl,rfl,?_⟩
    simp only [Worker.Processing,Worker.batchBuffer,pc,SpscQueue.State.returned,ret]
    cases recheck <;> simp [Loop.items]
  | taken recheck pc ret _ =>
    refine ⟨.inl rfl,rfl,rfl,?_⟩
    simp only [Worker.Processing,Worker.batchBuffer,pc,SpscQueue.State.returned,ret,Loop.items]
    intro hk
    rw [← hk]
    simp [payloads,Request.payload,Function.comp_def]
  | consume recheck pc ret next =>
    obtain ⟨hacc,hprod,hdel⟩ := SpscQueue.State.consume_cases next
    refine ⟨.inr ⟨_,next⟩,hacc,hprod,?_⟩
    have hret : w.queue.returned = [] := by
      unfold SpscQueue.State.returned
      split
      · rename_i items hr
        exact absurd hr (ret items)
      · rfl
    simp only [Worker.Processing,Worker.batchBuffer,pc,hret,hdel,payloads_append]
    intro hk
    simpa using hk
  | process pc step =>
    obtain ⟨hq,-,hp,hi,hne,-⟩ := step.frame
    refine ⟨.inl hq,by rw [hq],by rw [hq],?_⟩
    rw [Worker.Processing,Worker.Processing,Worker.batchBuffer_eq hne,hi,hp,hq]
    simp [Worker.batchBuffer,pc,Loop.items,payloads]
  | @flag req res items count pc =>
    obtain ⟨wal,hwal⟩ := w.journal_eq req res inp.systemNow
    rw [hwal]
    exact ⟨.inl rfl,rfl,rfl,by simp [Worker.Processing,Worker.batchBuffer,pc,Loop.items]⟩
  | publish pc _ => exact ⟨.inl rfl,rfl,rfl,id⟩
  | again pc _ | busy pc | idle pc | offer pc _ | published pc _ | refused pc _ | addCount pc =>
    exact ⟨.inl rfl,rfl,rfl,by simp [Worker.Processing,Worker.batchBuffer,pc,Loop.items]⟩

end Worker

@[simp] theorem State.setShard_shards_self (e : State κ) (i : ShardId) (s : Shard κ) :
    (e.setShard i s).shards i = s := by simp [State.setShard]

theorem State.setShard_shards_of_ne {e : State κ} {i j : ShardId} {s : Shard κ} (h : j ≠ i) :
    (e.setShard i s).shards j = e.shards j := by simp [State.setShard,h]

theorem State.stopEngine_shared {e e' : State κ} (h : e.stopEngine = some e') :
    e'.shared = e.shared := by
  unfold State.stopEngine at h
  repeat' split at h
  all_goals cases h
  all_goals rfl

section Shard
variable [DecidableEq κ]

/-- What a step of the engine does to a shard it does not leave alone. -/
inductive ShardStep (e : State κ) (i : ShardId) : Act κ → Shard κ → Prop where
  | enqueue {c : κ} {p : Push} {req : Request} {todo : List (ShardId × Request)}
      {q : MpmcQueue.State Nat Request (Caller κ)} (now : Int64) (spurious : Bool)
      (hc : e.calls c = .enqueue p) (ht : p.todo = (i,req) :: todo)
      (hn : (e.shards i).queue.next (.enqueue (p.caller c) (p.stamp req now)) = some q) :
      ShardStep e i (.client c now spurious) { e.shards i with queue := q }
  | attempt {c : κ} {p : Push} {req : Request} {todo : List (ShardId × Request)}
      {q : MpmcQueue.State Nat Request (Caller κ)} (now : Int64) (spurious : Bool)
      (hc : e.calls c = .enqueuing p) (ht : p.todo = (i,req) :: todo)
      (hn : (e.shards i).queue.next (.step (p.caller c) spurious) = some q) :
      ShardStep e i (.client c now spurious) { e.shards i with queue := q }
  | call {k : Nat} {q : MpmcQueue.State Nat Request (Caller κ)} (pop push : Int64) (spurious : Bool)
      (hd : (e.shards i).dispatcher = .loop k) (hr : e.running = true)
      (hn : (e.shards i).queue.next (.dequeue (.dispatcher k)) = some q) :
      ShardStep e i (.dispatch i pop push spurious)
        { e.shards i with queue := q, dispatcher := .dequeue k }
  | leave {k : Nat} (pop push : Int64) (spurious : Bool)
      (hd : (e.shards i).dispatcher = .loop k) (hr : e.running = false) :
      ShardStep e i (.dispatch i pop push spurious) { e.shards i with dispatcher := .exited }
  | empty {k : Nat} (pop push : Int64) (spurious : Bool) (hd : (e.shards i).dispatcher = .dequeue k)
      (hp : (e.shards i).queue.pc (.dispatcher k) = .deqReturn none) :
      ShardStep e i (.dispatch i pop push spurious) { e.shards i with dispatcher := .loop (k+1) }
  | pop {k pos : Nat} {req wreq : Request} {q : SpscQueue.State Request}
      (pop push : Int64) (spurious : Bool) (hd : (e.shards i).dispatcher = .dequeue k)
      (hp : (e.shards i).queue.pc (.dispatcher k) = .deqReturn (some (pos,req)))
      (hw : wreq.payload = req.payload)
      (hn : (e.shards i).worker.queue.next (.tryEnqueue wreq) = some q) :
      ShardStep e i (.dispatch i pop push spurious) { e.shards i with
        dispatcher := .push k wreq, worker := { (e.shards i).worker with queue := q } }
  | dequeue {k : Nat} {q : MpmcQueue.State Nat Request (Caller κ)}
      (pop push : Int64) (spurious : Bool) (hd : (e.shards i).dispatcher = .dequeue k)
      (hn : (e.shards i).queue.next (.step (.dispatcher k) spurious) = some q) :
      ShardStep e i (.dispatch i pop push spurious) { e.shards i with queue := q }
  | pushed {k : Nat} {wreq : Request} (pop push : Int64) (spurious : Bool)
      (hd : (e.shards i).dispatcher = .push k wreq)
      (hp : (e.shards i).worker.queue.producer = .ret true) :
      ShardStep e i (.dispatch i pop push spurious) { e.shards i with dispatcher := .loop (k+1) }
  | retry {k : Nat} {wreq : Request} {q : SpscQueue.State Request}
      (pop push : Int64) (spurious : Bool) (hd : (e.shards i).dispatcher = .push k wreq)
      (hp : (e.shards i).worker.queue.producer = .ret false)
      (hn : (e.shards i).worker.queue.next (.tryEnqueue wreq) = some q) :
      ShardStep e i (.dispatch i pop push spurious)
        { e.shards i with worker := { (e.shards i).worker with queue := q } }
  | push {k : Nat} {wreq : Request} {q : SpscQueue.State Request}
      (pop push : Int64) (spurious : Bool) (hd : (e.shards i).dispatcher = .push k wreq)
      (hn : (e.shards i).worker.queue.next .produce = some q) :
      ShardStep e i (.dispatch i pop push spurious)
        { e.shards i with worker := { (e.shards i).worker with queue := q } }
  | work {inp : WorkerInput} {sh : Shared κ} {w : Worker}
      (hn : (e.shards i).worker.step e.shared i inp = some (sh,w)) :
      ShardStep e i (.work i inp) { e.shards i with worker := w }
  | stop (hs : e.stop = .stopWorker i) :
      ShardStep e i .stop
        { e.shards i with worker := { (e.shards i).worker with running := false } }

theorem ShardStep.of_set {e e' : State κ} {i j : ShardId} {a : Act κ} {s : Shard κ}
    (he : e'.shards = (e.setShard i s).shards) (h : ShardStep e i a s) :
    e'.shards j = e.shards j ∨ ShardStep e j a (e'.shards j) := by
  rw [he]
  by_cases hj : j = i
  · subst hj
    rw [State.setShard_shards_self]
    exact .inr h
  · exact .inl (State.setShard_shards_of_ne hj)

theorem State.dispatch_shard {e e' : State κ} {i j : ShardId} {pop push : Int64} {spurious : Bool}
    (h : e.dispatch i pop push spurious = some e') :
    e'.shards j = e.shards j ∨ ShardStep e j (.dispatch i pop push spurious) (e'.shards j) := by
  unfold State.dispatch at h
  cases hd : (e.shards i).dispatcher with
  | loop k =>
    simp only [hd] at h
    split at h
    · rename_i hr
      obtain ⟨q,hq,rfl⟩ := Option.map_eq_some_iff.mp h
      exact ShardStep.of_set rfl (.call pop push spurious hd hr hq)
    · rename_i hr
      cases h
      exact ShardStep.of_set rfl (.leave pop push spurious hd (by simpa using hr))
  | dequeue k =>
    simp only [hd] at h
    split at h
    · rename_i hp
      cases h
      exact ShardStep.of_set rfl (.empty pop push spurious hd hp)
    · rename_i pos req hp
      obtain ⟨q,hq,rfl⟩ := Option.map_eq_some_iff.mp h
      exact ShardStep.of_set rfl (.pop pop push spurious hd hp rfl hq)
    · obtain ⟨q,hq,rfl⟩ := Option.map_eq_some_iff.mp h
      exact ShardStep.of_set rfl (by rw [← hd]; exact .dequeue pop push spurious hd hq)
  | push k wreq =>
    simp only [hd] at h
    split at h
    · rename_i hp
      cases h
      exact ShardStep.of_set rfl (.pushed pop push spurious hd hp)
    · rename_i hp
      obtain ⟨q,hq,rfl⟩ := Option.map_eq_some_iff.mp h
      exact ShardStep.of_set rfl (by rw [← hd]; exact .retry pop push spurious hd hp hq)
    · obtain ⟨q,hq,rfl⟩ := Option.map_eq_some_iff.mp h
      exact ShardStep.of_set rfl (by rw [← hd]; exact .push pop push spurious hd hq)
  | exited => simp [hd] at h

theorem State.client_shard {e e' : State κ} {c : κ} {j : ShardId} {now : Int64} {spurious : Bool}
    (h : e.client c now spurious = some e') :
    e'.shards j = e.shards j ∨ ShardStep e j (.client c now spurious) (e'.shards j) := by
  unfold State.client at h
  cases hc : e.calls c with
  | enqueue p =>
    simp only [hc] at h
    split at h
    · cases h
      exact .inl rfl
    · rename_i i req todo ht
      obtain ⟨q,hq,rfl⟩ := Option.map_eq_some_iff.mp h
      exact ShardStep.of_set rfl (.enqueue now spurious hc ht hq)
  | enqueuing p =>
    simp only [hc] at h
    split at h
    · cases h
    · rename_i i req todo ht
      split at h
      · cases h
        exact .inl rfl
      · cases h
        exact .inl rfl
      · obtain ⟨q,hq,rfl⟩ := Option.map_eq_some_iff.mp h
        exact ShardStep.of_set rfl (.attempt now spurious hc ht hq)
  | polling =>
    simp only [hc] at h
    split at h
    · cases h
      exact .inl rfl
    · obtain ⟨q,-,rfl⟩ := Option.map_eq_some_iff.mp h
      exact .inl rfl
  | idle | ret n | retResult res => simp [hc] at h
  | _ =>
    simp only [hc,Option.some.injEq] at h
    subst h
    exact .inl rfl

theorem State.start_shards {e e' : State κ} {c : κ} {f : Api} (h : e.start c f = some e') :
    e'.shards = e.shards := by
  unfold State.start at h
  split at h
  · cases f with
    | pollResult =>
      obtain ⟨q,-,rfl⟩ := Option.map_eq_some_iff.mp h
      rfl
    | _ => cases h; rfl
  · cases h

theorem State.stopEngine_shard {e e' : State κ} {j : ShardId} (h : e.stopEngine = some e') :
    e'.shards j = e.shards j ∨ ShardStep e j .stop (e'.shards j) := by
  unfold State.stopEngine at h
  split at h
  · cases h
    exact .inl rfl
  · repeat' split at h
    all_goals cases h
    all_goals exact .inl rfl
  · rename_i i hs
    split at h
    · cases h
      exact ShardStep.of_set rfl (.stop hs)
    · cases h
      exact .inl rfl
  · repeat' split at h
    all_goals cases h
    all_goals exact .inl rfl
  · cases h

theorem State.next_shard {e e' : State κ} {a : Act κ} (h : e.next a = some e') (j : ShardId) :
    e'.shards j = e.shards j ∨ ShardStep e j a (e'.shards j) := by
  cases a with
  | start c f => exact .inl (congrFun (State.start_shards h) j)
  | client c now spurious => exact State.client_shard h
  | dispatch i pop push spurious => exact State.dispatch_shard h
  | work i inp =>
    obtain ⟨⟨sh,w⟩,hw,rfl⟩ := Option.map_eq_some_iff.mp h
    exact ShardStep.of_set rfl (.work hw)
  | stop => exact State.stopEngine_shard h

theorem State.next_frame {e e' : State κ} {a : Act κ} (h : e.next a = some e') (ha : a ≠ .stop)
    (hw : ∀ i inp, a ≠ .work i inp) :
    e'.stop = e.stop ∧ e'.shared.soldTotal = e.shared.soldTotal := by
  cases a with
  | work i inp => exact absurd rfl (hw i inp)
  | stop => exact absurd rfl ha
  | _ =>
    simp only [State.next,State.start,State.client,State.dispatch] at h
    repeat' split at h
    all_goals first
      | (obtain ⟨q,-,rfl⟩ := Option.map_eq_some_iff.mp h; exact ⟨rfl,rfl⟩)
      | (cases h <;> exact ⟨rfl,rfl⟩)

end Shard
end Flashsale.Engine
