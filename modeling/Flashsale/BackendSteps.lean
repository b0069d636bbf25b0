import Flashsale.Backend
import Flashsale.GateRollback
set_option autoImplicit false

namespace Flashsale.Backend
open Cache Engine

def rowOf (m : Member) : Order :=
  { id := m.reqId, skuId := m.skuId, guestId := m.userId, qty := m.qty.toInt32, status := 1 }

/-- The request a call of `EnqueueHandler` may still bring into the engine. -/
def Handler.request : Handler → Option Member
  | .check m | .deduct m | .register m | .enqueue m => some m
  | .rollback _ _ => none

def Instance.command (x : Instance) : Act → Option Command
  | .handle (.deduct m) net _ now => net.sent (.deduct m now)
  | .handle (.register m) net _ _ => net.sent (.sadd m.skuId)
  | .handle (.rollback r _) net _ now | .undo r net now => r.command net now
  | .pipe net => x.pipeline.bind fun cs => cs.head?.bind net.sent
  | .sweep net now _ _ =>
      match x.sweeper with
      | .ack m _ _ => net.sent (.zrem m.skuId [m])
      | .undo r _ _ => r.command net now
      | _ => none
  | _ => none

def Instance.inserted (x : Instance) : Act → List Order
  | .flushOrders true => x.dbBatch
  | _ => []

def Instance.sweeps (x : Instance) (w : World) : Act → Option Member
  | .sweep net _ _ _ =>
      match x.sweeper with
      | .undo r _ _ => if r.effective w.redis net then some r.member else none
      | _ => none
  | _ => none

def Redis.after (r : Redis) (c : Option Command) : Redis := c.elim r fun c => (r.run c).2

@[simp] theorem Redis.after_none (r : Redis) : r.after none = r := rfl

@[simp] theorem Redis.call_snd (r : Redis) (c : Command) (net : Net) :
    (r.call c net).2 = r.after (net.sent c) := by cases net <;> rfl

@[simp] theorem Rollback.step_snd (r : Rollback) (redis : Redis) (net : Net) (now : Int) :
    (r.step redis net now).2 = redis.after (r.command net now) := by
  unfold Rollback.step Rollback.command
  split
  · rw [← Redis.call_snd]
    split <;> rename_i heq <;> rw [heq]
  · exact Redis.call_snd _ _ _

section Orders
variable {orders batch : List Order} {order o : Order}

theorem mem_insertOrder (h : o ∈ insertOrder orders order) : o ∈ orders ∨ o = order := by
  unfold insertOrder at h
  split at h
  · exact .inl h
  · simpa using h

theorem mem_insertOrder_of_mem (h : o ∈ orders) : o ∈ insertOrder orders order := by
  unfold insertOrder
  split
  · exact h
  · exact List.mem_append_left _ h

theorem mem_insertOrders (h : o ∈ insertOrders orders batch) : o ∈ orders ∨ o ∈ batch := by
  induction batch generalizing orders with
  | nil => exact .inl h
  | cons order batch ih =>
    rcases ih h with h | h
    · rcases mem_insertOrder h with h | rfl
      · exact .inl h
      · exact .inr List.mem_cons_self
    · exact .inr (List.mem_cons_of_mem _ h)

theorem mem_insertOrders_of_mem (h : o ∈ orders) : o ∈ insertOrders orders batch := by
  induction batch generalizing orders with
  | nil => exact h
  | cons order batch ih => exact ih (mem_insertOrder_of_mem h)

end Orders

section Steps
variable {x x' : Instance} {w w' : World} {a : Act}

structure Outside (x : Instance) (w w' : World) (a : Act) : Prop where
  redis : w'.redis = w.redis.after (x.command a)
  orders : w'.orders = insertOrders w.orders (x.inserted a)
  swept : w'.swept = (x.sweeps w a).elim w.swept (· ::ₘ w.swept)

theorem Instance.handle_outside (x y : Instance) (w : World) (h : Handler) (net : Net)
    (code : Int32) (now : Int) :
    Outside x w (y.handle w h net code now).1 (.handle h net code now) := by
  cases h with
  | check m =>
    simp only [Instance.handle]
    split <;> exact ⟨rfl,rfl,rfl⟩
  | deduct m =>
    simp only [Instance.handle]
    refine ⟨?_,?_,?_⟩
    · rw [Instance.command,← Redis.call_snd]
      repeat' split
      all_goals rfl
    · repeat' split
      all_goals rfl
    · repeat' split
      all_goals rfl
  | register m => exact ⟨Redis.call_snd _ _ _,rfl,rfl⟩
  | enqueue m =>
    simp only [Instance.handle]
    split <;> exact ⟨rfl,rfl,rfl⟩
  | rollback r response =>
    simp only [Instance.handle]
    refine ⟨?_,?_,?_⟩
    · rw [Instance.command,← Rollback.step_snd]
      split <;> rfl
    · split <;> rfl
    · split <;> rfl

theorem poll_eq {res : CSeckillResult} (h : x.poll res = some x') : ∃ results workers,
    x.engine.results = res ::ₘ results ∧ x.workers = .poll ::ₘ workers ∧
      x' = { x with
        engine := { x.engine with results := results }
        resultsReceived := x.resultsReceived + 1
        resultsSoldOut := if res.status = 2 then x.resultsSoldOut + 1 else x.resultsSoldOut
        workers := received res ::ₘ workers } := by
  unfold Instance.poll at h
  split at h
  · rename_i hpoll
    obtain ⟨e,he,rfl⟩ := Option.map_eq_some_iff.mp h
    unfold Abstract.poll at he
    split at he
    · rename_i hres
      obtain ⟨results,hresults⟩ := Multiset.exists_cons_of_mem hres
      obtain ⟨workers,hworkers⟩ := Multiset.exists_cons_of_mem hpoll
      cases he
      refine ⟨results,workers,hresults,hworkers,?_⟩
      rw [hresults,hworkers,Multiset.erase_cons_head,Multiset.erase_cons_head]
    · cases he
  · cases h

inductive Pushed (x : Instance) : ResultWorker → Instance → Prop where
  | order {order : Order} {task : CleanupTask} {workers : Multiset ResultWorker}
      (worker : x.workers = .persist order task ::ₘ workers)
      (room : x.orderChan.length < chanSize) : Pushed x (.persist order task)
        { x with orderChan := x.orderChan ++ [order], workers := .cleanup task ::ₘ workers }
  | task {task : CleanupTask} {workers : Multiset ResultWorker}
      (worker : x.workers = .cleanup task ::ₘ workers)
      (room : x.cleanupChan.length < chanSize) : Pushed x (.cleanup task)
        { x with cleanupChan := x.cleanupChan ++ [task], workers := .poll ::ₘ workers }

theorem push_cases {wk : ResultWorker} (h : x.push wk = some x') : Pushed x wk x' := by
  unfold Instance.push at h
  split at h
  · rename_i hwk
    obtain ⟨workers,hworkers⟩ := Multiset.exists_cons_of_mem hwk
    cases wk with
    | poll => cases h
    | persist order task =>
      dsimp only at h
      split at h
      · cases h
        rw [hworkers,Multiset.erase_cons_head]
        exact .order hworkers ‹_›
      · cases h
    | cleanup task =>
      dsimp only at h
      split at h
      · cases h
        rw [hworkers,Multiset.erase_cons_head]
        exact .task hworkers ‹_›
      · cases h
  · cases h

theorem receiveOrder_eq (h : x.receiveOrder = some x') :
    ∃ order rest, x.orderChan = order :: rest ∧ x.dbBatch.length < dbBatchSize ∧
      x' = { x with orderChan := rest, dbBatch := x.dbBatch ++ [order] } := by
  unfold Instance.receiveOrder at h
  split at h
  · cases h
  · rename_i order rest hchan
    split at h
    · cases h
      exact ⟨order,rest,hchan,‹_›,rfl⟩
    · cases h

theorem flushOrders_eq {ok : Bool} (h : x.flushOrders w ok = some (w',x')) :
    x.dbBatch ≠ [] ∧
      w' = { w with orders := if ok then insertOrders w.orders x.dbBatch else w.orders } ∧
      x' = { x with
        dbCommitted := x.dbCommitted + x.dbBatch.length.toUInt64
        dbBatch := [] } := by
  unfold Instance.flushOrders at h
  split at h
  · cases h
  · rename_i hne
    cases h
    exact ⟨hne,rfl,rfl⟩

theorem receiveTask_eq (h : x.receiveTask = some x') :
    ∃ task rest, x.pipeline = none ∧ x.cleanupChan = task :: rest ∧
      x.cleanupBatch.length < cleanupBatchSize ∧
      x' = { x with cleanupChan := rest, cleanupBatch := x.cleanupBatch ++ [task] } := by
  unfold Instance.receiveTask at h
  split at h
  · rename_i task rest hpipe hchan
    split at h
    · cases h
      exact ⟨task,rest,hpipe,hchan,‹_›,rfl⟩
    · cases h
  · cases h

theorem flushTasks_eq {skus : List Int64} (h : x.flushTasks skus = some x') :
    x.pipeline = none ∧ x.cleanupBatch ≠ [] ∧ skus.Perm (batchSkus x.cleanupBatch) ∧
      x' = { x with
        pipeline := some (pipelineOf x.cleanupBatch skus)
        rollbacks := (failures x.cleanupBatch : Multiset CleanupTask).map
          (fun t => ⟨t.member,0⟩) + x.rollbacks
        cleanupBatch := [] } := by
  unfold Instance.flushTasks at h
  split at h
  · rename_i task tasks hpipe hbatch
    dsimp only at h
    split at h
    · rename_i hperm
      cases h
      rw [hbatch]
      exact ⟨hpipe,List.cons_ne_nil _ _,hperm,rfl⟩
    · cases h
  · cases h

inductive Piped (x : Instance) (w : World) (net : Net) : World → Instance → Prop where
  | done (pipeline : x.pipeline = some []) : Piped x w net w { x with pipeline := none }
  | failed {c : Command} {cs : List Command} (pipeline : x.pipeline = some (c :: cs))
      (lost : net = .failed) : Piped x w net w { x with pipeline := some cs }
  | sent {c : Command} {cs : List Command} (pipeline : x.pipeline = some (c :: cs))
      (arrives : net ≠ .failed) :
      Piped x w net { w with redis := (w.redis.run c).2, acked := c.acks + w.acked }
        { x with pipeline := some cs }

theorem pipe_cases {net : Net} (h : x.pipe w net = some (w',x')) : Piped x w net w' x' := by
  unfold Instance.pipe at h
  split at h
  · cases h
  · rename_i hp
    cases h
    exact .done hp
  · rename_i c cs hp
    dsimp only at h
    split at h
    · rename_i hnet
      cases h
      exact .failed hp hnet
    · rename_i hnet
      cases h
      exact .sent hp hnet

theorem undo_eq {r : Rollback} {net : Net} {now : Int} (h : x.undo w r net now = some (w',x')) :
    ∃ rest, x.rollbacks = r ::ₘ rest ∧ w' = { w with redis := (r.step w.redis net now).2 } ∧
      x' = { x with rollbacks := (r.step w.redis net now).1.elim rest (· ::ₘ rest) } := by
  unfold Instance.undo at h
  split at h
  · rename_i hr
    obtain ⟨rest,hrest⟩ := Multiset.exists_cons_of_mem hr
    cases h
    refine ⟨rest,hrest,rfl,?_⟩
    rw [hrest,Multiset.erase_cons_head]
  · cases h

/-- The part of the process that a step belongs to. -/
inductive InstanceStep (x : Instance) (w : World) : Act → World → Option Instance → Prop where
  | receive (m : Member) : InstanceStep x w (.receive m) w (some (x.goto (.check m)))
  | handle {h : Handler} {y : Instance} (net : Net) (code : Int32) (now : Int)
      (called : x = y.goto h) : InstanceStep x w (.handle h net code now)
        (y.handle w h net code now).1 (some (y.handle w h net code now).2)
  | process {r : Payload} {out : Option CSeckillResult} {w' : World} {x' : Instance}
      (step : x.process w r out = some (w',x')) : InstanceStep x w (.process r out) w' (some x')
  | poll {res : CSeckillResult} {x' : Instance} (step : x.poll res = some x') :
      InstanceStep x w (.poll res) w (some x')
  | push {wk : ResultWorker} {x' : Instance} (step : x.push wk = some x') :
      InstanceStep x w (.push wk) w (some x')
  | receiveOrder {x' : Instance} (step : x.receiveOrder = some x') :
      InstanceStep x w .receiveOrder w (some x')
  | flushOrders {ok : Bool} {w' : World} {x' : Instance}
      (step : x.flushOrders w ok = some (w',x')) : InstanceStep x w (.flushOrders ok) w' (some x')
  | receiveTask {x' : Instance} (step : x.receiveTask = some x') :
      InstanceStep x w .receiveTask w (some x')
  | flushTasks {skus : List Int64} {x' : Instance} (step : x.flushTasks skus = some x') :
      InstanceStep x w (.flushTasks skus) w (some x')
  | pipe {net : Net} {w' : World} {x' : Instance} (step : x.pipe w net = some (w',x')) :
      InstanceStep x w (.pipe net) w' (some x')
  | undo {r : Rollback} {net : Net} {now : Int} {w' : World} {x' : Instance}
      (step : x.undo w r net now = some (w',x')) : InstanceStep x w (.undo r net now) w' (some x')
  | sweep {net : Net} {now : Int} {skus : List Int64} {found : List Member} {w' : World}
      {x' : Instance} (step : x.sweep w net now skus found = some (w',x')) :
      InstanceStep x w (.sweep net now skus found) w' (some x')
  | crash : InstanceStep x w .crash w none

theorem Instance.next_cases {y : Option Instance} (h : x.next w a = some (w',y)) :
    InstanceStep x w a w' y := by
  cases a with
  | receive m =>
    cases h
    exact .receive m
  | crash =>
    cases h
    exact .crash
  | handle hd net code now =>
    simp only [Instance.next] at h
    split at h
    · rename_i hmem
      cases h
      refine .handle net code now ?_
      simp [Instance.goto,Multiset.cons_erase hmem]
    · cases h
  | _ =>
    obtain ⟨s,hs,he⟩ := Option.map_eq_some_iff.mp h
    cases he
    constructor
    exact hs

theorem Instance.process_outside {r : Payload} {out : Option CSeckillResult}
    (h : x.process w r out = some (w',x')) : Outside x w w' (.process r out) := by
  obtain ⟨e,-,he⟩ := Option.map_eq_some_iff.mp h
  cases he
  cases out with
  | none => exact ⟨rfl,rfl,rfl⟩
  | some res =>
    dsimp only
    repeat' split
    all_goals exact ⟨rfl,rfl,rfl⟩

theorem Instance.pipe_outside {net : Net} (h : x.pipe w net = some (w',x')) :
    Outside x w w' (.pipe net) := by
  cases pipe_cases h with
  | done hp => exact ⟨by simp [Instance.command,hp],rfl,rfl⟩
  | failed hp hnet => exact ⟨by simp [Instance.command,hp,Net.sent,hnet],rfl,rfl⟩
  | sent hp hnet => exact ⟨by simp [Instance.command,hp,Net.sent,hnet,Redis.after],rfl,rfl⟩

theorem Instance.sweep_outside {net : Net} {now : Int} {skus : List Int64} {found : List Member}
    (h : x.sweep w net now skus found = some (w',x')) :
    Outside x w w' (.sweep net now skus found) := by
  unfold Instance.sweep at h
  split at h
  case h_6 m ms rest hs =>
    cases h
    exact ⟨by simp [Instance.command,hs],rfl,by simp [Instance.sweeps,hs]⟩
  case h_7 r ms rest hs =>
    cases h
    refine ⟨by simp [Instance.command,hs],rfl,?_⟩
    simp only [Instance.sweeps,hs]
    split <;> simp
  all_goals
    rename_i hs
    have hquiet : Outside x w w (.sweep net now skus found) :=
      ⟨by simp [Instance.command,hs],rfl,by simp [Instance.sweeps,hs]⟩
    repeat' split at h
    all_goals cases h
    all_goals exact hquiet

theorem Instance.next_outside {y : Option Instance} (h : x.next w a = some (w',y)) :
    Outside x w w' a := by
  cases Instance.next_cases h with
  | handle net code now => exact Instance.handle_outside _ _ _ _ _ _ _
  | process step => exact Instance.process_outside step
  | @flushOrders ok w' x' step =>
    obtain ⟨-,rfl,rfl⟩ := flushOrders_eq step
    cases ok <;> exact ⟨rfl,rfl,rfl⟩
  | pipe step => exact Instance.pipe_outside step
  | undo step =>
    obtain ⟨rest,-,rfl,rfl⟩ := undo_eq step
    exact ⟨Rollback.step_snd _ _ _ _,rfl,rfl⟩
  | sweep step => exact Instance.sweep_outside step
  | _ => exact ⟨rfl,rfl,rfl⟩

theorem Instance.next_none (h : x.next w a = some (w',none)) : a = .crash := by
  cases Instance.next_cases h with
  | crash => rfl

theorem Instance.inserted_of_command {c : Command} (h : x.command a = some c) :
    x.inserted a = [] := by
  cases a <;> first | rfl | cases h

end Steps

section Commands
variable {r : Redis} {c : Command}

/-- A command changes one gate at most, by one of three operations. -/
inductive GateStep (r r' : Redis) (skuId : Int64) : Command → Prop where
  | deducted {m : Member} {timestamp : Int} (sku : m.skuId = skuId)
      (gate : Deducted (r.gates skuId) (r'.gates skuId) m) : GateStep r r' skuId (.deduct m timestamp)
  | rolledBack {m : Member} (sku : m.skuId = skuId)
      (gate : RolledBack (r.gates skuId) (r'.gates skuId) m) : GateStep r r' skuId (.rollback m)
  | broken {m : Member} (sku : m.skuId = skuId) (user : m.userId ∈ (r.gates skuId).bought)
      (stock : incrBy (r.gates skuId).stock m.luaQty = none)
      (gate : r'.gates skuId =
        { r.gates skuId with bought := (r.gates skuId).bought.erase m.userId }) :
      GateStep r r' skuId (.rollback m)
  | removed {ms : List Member} (gate : r'.gates skuId = (r.gates skuId).zrem ms) :
      GateStep r r' skuId (.zrem skuId ms)
  | same {c : Command} (gate : r'.gates skuId = r.gates skuId) : GateStep r r' skuId c

theorem Redis.setGate_self (r : Redis) (skuId : Int64) (g : Gate) :
    (r.setGate skuId g).gates skuId = g := by simp [Redis.setGate]

theorem Redis.setGate_of_ne {k skuId : Int64} {g : Gate} (h : k ≠ skuId) :
    (r.setGate skuId g).gates k = r.gates k := by simp [Redis.setGate,h]

theorem Redis.run_gate (r : Redis) (c : Command) (skuId : Int64) :
    GateStep r (r.run c).2 skuId c := by
  cases c with
  | sadd _ | rpush _ | setnx _ => exact .same rfl
  | deduct m timestamp =>
    by_cases hk : skuId = m.skuId
    · subst hk
      rcases (r.gates m.skuId).deduct_cases m timestamp with ⟨-,hd⟩ | ⟨-,hg⟩
      · refine .deducted rfl ?_
        simpa only [Redis.run,Redis.setGate_self] using hd
      · refine .same ?_
        simpa only [Redis.run,Redis.setGate_self] using hg
    · exact .same (Redis.setGate_of_ne hk)
  | rollback m =>
    by_cases hk : skuId = m.skuId
    · subst hk
      rcases (r.gates m.skuId).rollback_cases m with ⟨-,hb⟩ | ⟨-,-,hg⟩ | ⟨-,hu,hi,hg⟩
      · refine .rolledBack rfl ?_
        simpa only [Redis.run,Redis.setGate_self] using hb
      · refine .same ?_
        simpa only [Redis.run,Redis.setGate_self] using hg
      · refine .broken rfl hu hi ?_
        simpa only [Redis.run,Redis.setGate_self] using hg
    · exact .same (Redis.setGate_of_ne hk)
  | zrem k ms =>
    by_cases hk : skuId = k
    · subst hk
      exact .removed (Redis.setGate_self _ _ _)
    · exact .same (Redis.setGate_of_ne hk)

end Commands

section Next
variable {ι : Type} [DecidableEq ι] {s t : State ι} {a : ι × Act}

theorem State.next_cases (h : s.next a = some t) :
    ∃ x y, s.instances a.1 = some x ∧ x.next s.world a.2 = some (t.world,y) ∧
      t.instances = Function.update s.instances a.1 y := by
  unfold State.next at h
  split at h
  · cases h
  · rename_i x hx
    obtain ⟨⟨w,y⟩,hs,rfl⟩ := Option.map_eq_some_iff.mp h
    exact ⟨x,y,hx,hs,rfl⟩

end Next
end Flashsale.Backend
