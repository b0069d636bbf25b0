import Flashsale.Sweeping
import Mathlib
set_option autoImplicit false

/-!
The persistence pipeline of one process: what the engine's workers post passes
the result queue, a result worker, `orderChan` and the batch of `dbWorker` on its
way to the orders table.
-/

namespace Flashsale.Backend
open Cache Engine Transition

/-- `posted` are the results put in the result queue and `stored` the orders whose
insert succeeded: history, which no step reads. -/
structure Pipeline where
  world : World
  process : Instance
  posted : List CSeckillResult
  stored : List Order

inductive PipelineAct where
  | post (res : CSeckillResult)
  | poll (res : CSeckillResult)
  | push (wk : ResultWorker)
  | receiveOrder
  | flushOrders (ok : Bool)
  | receiveTask
  | flushTasks (skus : List Int64)
  | pipe (net : Net)
  | undo (r : Rollback) (net : Net) (now : Int)
  deriving DecidableEq

def Instance.post (x : Instance) (res : CSeckillResult) : Instance :=
  { x with engine := { x.engine with results := res ::ₘ x.engine.results } }

def Pipeline.setProcess (s : Pipeline) (x : Instance) : Pipeline := { s with process := x }

def Pipeline.setBoth (s : Pipeline) (r : World × Instance) : Pipeline :=
  { s with world := r.1, process := r.2 }

def Pipeline.next (s : Pipeline) : PipelineAct → Option Pipeline
  | .post res => some { s with process := s.process.post res, posted := s.posted ++ [res] }
  | .poll res => (s.process.poll res).map s.setProcess
  | .push wk => (s.process.push wk).map s.setProcess
  | .receiveOrder => s.process.receiveOrder.map s.setProcess
  | .flushOrders ok =>
      (s.process.flushOrders s.world ok).map fun r =>
        { s.setBoth r with stored := if ok then s.stored ++ s.process.dbBatch else s.stored }
  | .receiveTask => s.process.receiveTask.map s.setProcess
  | .flushTasks skus => (s.process.flushTasks skus).map s.setProcess
  | .pipe net => (s.process.pipe s.world net).map s.setBoth
  | .undo r net now => (s.process.undo s.world r net now).map s.setBoth

def Pipeline.start (w : World) (dbCommitted : UInt64) : Pipeline where
  world := w
  process := { startConsumer with dbCommitted := dbCommitted }
  posted := []
  stored := []

def pipeline : System Pipeline PipelineAct where
  init s := ∃ w dbCommitted, s = Pipeline.start w dbCommitted
  next := Pipeline.next

/-- `Create` stores the batch, or ignores the rows whose key is taken. -/
def PipelineAct.Inserts (a : PipelineAct) : Prop := a ≠ .flushOrders false

instance (a : PipelineAct) : Decidable a.Inserts := inferInstanceAs (Decidable (a ≠ _))

def Instance.waiting (x : Instance) : Multiset Order :=
  x.engine.results.filterMap saleRow + x.workers.filterMap ResultWorker.row +
    (x.orderChan : Multiset Order) + x.dbBatch

structure Instance.Idle (x : Instance) : Prop where
  results : x.engine.results = 0
  workers : ∀ wk ∈ x.workers, wk = .poll
  orderChan : x.orderChan = []
  dbBatch : x.dbBatch = []

section Orders
variable {orders batch : List Order} {o : Order}

theorem insertOrders_append (orders batch more : List Order) :
    insertOrders orders (batch ++ more) = insertOrders (insertOrders orders batch) more :=
  List.foldl_append

theorem id_mem_insertOrder (orders : List Order) (o : Order) :
    ∃ row ∈ insertOrder orders o, row.id = o.id := by
  unfold insertOrder
  split
  · rename_i hany
    simpa using hany
  · exact ⟨o,by simp,rfl⟩

theorem id_mem_insertOrders (h : o ∈ batch) : ∃ row ∈ insertOrders orders batch, row.id = o.id := by
  induction batch generalizing orders with
  | nil => cases h
  | cons first batch ih =>
    rcases List.mem_cons.mp h with rfl | h
    · obtain ⟨row,hrow,hid⟩ := id_mem_insertOrder orders o
      have hlater : row ∈ insertOrders (insertOrder orders o) batch := mem_insertOrders_of_mem hrow
      exact ⟨row,hlater,hid⟩
    · exact ih h

theorem insertOrders_eq_append (hnodup : (batch.map (·.id)).Nodup)
    (hnew : ∀ o ∈ batch, ∀ row ∈ orders, row.id ≠ o.id) :
    insertOrders orders batch = orders ++ batch := by
  induction batch generalizing orders with
  | nil => simp [insertOrders]
  | cons first batch ih =>
    simp only [List.map_cons,List.nodup_cons] at hnodup
    have hfirst : insertOrder orders first = orders ++ [first] := by
      have hany : ¬ orders.any (·.id = first.id) := by
        simpa using fun row hrow => hnew first (by simp) row hrow
      rw [insertOrder,if_neg hany]
    have hrest : ∀ o ∈ batch, ∀ row ∈ orders ++ [first], row.id ≠ o.id := by
      intro o ho row hrow
      rcases List.mem_append.mp hrow with hrow | hrow
      · exact hnew o (by simp [ho]) row hrow
      · obtain rfl := List.mem_singleton.mp hrow
        intro he
        exact hnodup.1 (he ▸ List.mem_map_of_mem ho)
    change insertOrders (insertOrder orders first) batch = _
    rw [hfirst,ih hnodup.2 hrest]
    simp

end Orders

section Waiting
variable {x x' : Instance} {w w' : World}

theorem startConsumer_waiting : startConsumer.waiting = 0 := by
  simp only [Instance.waiting,startConsumer,Abstract.empty]
  rfl

theorem waiting_post (x : Instance) (res : CSeckillResult) :
    (x.post res).waiting = ((saleRow res).map singleton).getD 0 + x.waiting := by
  simp only [Instance.waiting,Instance.post,Multiset.filterMap_cons]
  abel

structure Undisturbed (x x' : Instance) (w w' : World) : Prop where
  waiting : x'.waiting = x.waiting
  dbBatch : x'.dbBatch = x.dbBatch
  dbCommitted : x'.dbCommitted = x.dbCommitted
  orders : w'.orders = w.orders

theorem poll_undisturbed {res : CSeckillResult} (h : x.poll res = some x') :
    Undisturbed x x' w w := by
  obtain ⟨results,workers,hresults,hworkers,rfl⟩ := poll_eq h
  refine ⟨?_,rfl,rfl,rfl⟩
  simp only [Instance.waiting,hresults,hworkers,Multiset.filterMap_cons,row_received,
    ResultWorker.row_poll,Option.map_none,Option.getD_none]
  abel

theorem push_undisturbed {wk : ResultWorker} (h : x.push wk = some x') :
    Undisturbed x x' w w := by
  cases push_cases h with
  | order hworkers _ =>
    refine ⟨?_,rfl,rfl,rfl⟩
    simp only [Instance.waiting,hworkers,Multiset.filterMap_cons,ResultWorker.row_persist,
      ResultWorker.row_cleanup,Option.map_some,Option.map_none,Option.getD_some,Option.getD_none,
      ← Multiset.coe_add,Multiset.coe_singleton]
    abel
  | task hworkers _ =>
    refine ⟨?_,rfl,rfl,rfl⟩
    simp only [Instance.waiting,hworkers,Multiset.filterMap_cons,ResultWorker.row_poll,
      ResultWorker.row_cleanup]

theorem waiting_receiveOrder (h : x.receiveOrder = some x') : x'.waiting = x.waiting := by
  obtain ⟨order,rest,hchan,-,rfl⟩ := receiveOrder_eq h
  simp only [Instance.waiting,hchan,← Multiset.coe_add,← Multiset.cons_coe,
    ← Multiset.singleton_add]
  abel

theorem receiveTask_undisturbed (h : x.receiveTask = some x') : Undisturbed x x' w w := by
  obtain ⟨task,rest,-,-,-,rfl⟩ := receiveTask_eq h
  exact ⟨rfl,rfl,rfl,rfl⟩

theorem flushTasks_undisturbed {skus : List Int64} (h : x.flushTasks skus = some x') :
    Undisturbed x x' w w := by
  obtain ⟨-,-,-,rfl⟩ := flushTasks_eq h
  exact ⟨rfl,rfl,rfl,rfl⟩

theorem pipe_undisturbed {net : Net} (h : x.pipe w net = some (w',x')) :
    Undisturbed x x' w w' := by
  cases pipe_cases h <;> exact ⟨rfl,rfl,rfl,rfl⟩

theorem undo_undisturbed {r : Rollback} {net : Net} {now : Int}
    (h : x.undo w r net now = some (w',x')) : Undisturbed x x' w w' := by
  obtain ⟨rest,-,rfl,rfl⟩ := undo_eq h
  exact ⟨rfl,rfl,rfl,rfl⟩

end Waiting

/-- The steps that move no order into the batch or out of it, and post nothing. -/
def PipelineAct.Aside : PipelineAct → Prop
  | .post _ | .receiveOrder | .flushOrders _ => False
  | _ => True

inductive PipelineStep (s : Pipeline) : PipelineAct → Pipeline → Prop where
  | post (res : CSeckillResult) : PipelineStep s (.post res)
      { s with process := s.process.post res, posted := s.posted ++ [res] }
  | receiveOrder {x : Instance} (step : s.process.receiveOrder = some x) :
      PipelineStep s .receiveOrder (s.setProcess x)
  | flushOrders {ok : Bool} {w : World} {x : Instance}
      (step : s.process.flushOrders s.world ok = some (w,x)) : PipelineStep s (.flushOrders ok)
      { s.setBoth (w,x) with stored := if ok then s.stored ++ s.process.dbBatch else s.stored }
  | aside {a : PipelineAct} {w : World} {x : Instance} (act : a.Aside)
      (step : Undisturbed s.process x s.world w) : PipelineStep s a (s.setBoth (w,x))

theorem Pipeline.next_cases {s t : Pipeline} {a : PipelineAct} (hn : s.next a = some t) :
    PipelineStep s a t := by
  cases a with
  | post res => cases hn; exact .post res
  | poll res =>
    obtain ⟨x,hx,rfl⟩ := Option.map_eq_some_iff.mp hn
    exact .aside (w := s.world) trivial (poll_undisturbed hx)
  | push wk =>
    obtain ⟨x,hx,rfl⟩ := Option.map_eq_some_iff.mp hn
    exact .aside (w := s.world) trivial (push_undisturbed hx)
  | receiveOrder =>
    obtain ⟨x,hx,rfl⟩ := Option.map_eq_some_iff.mp hn
    exact .receiveOrder hx
  | flushOrders ok =>
    obtain ⟨⟨w,x⟩,hx,rfl⟩ := Option.map_eq_some_iff.mp hn
    exact .flushOrders hx
  | receiveTask =>
    obtain ⟨x,hx,rfl⟩ := Option.map_eq_some_iff.mp hn
    exact .aside (w := s.world) trivial (receiveTask_undisturbed hx)
  | flushTasks skus =>
    obtain ⟨x,hx,rfl⟩ := Option.map_eq_some_iff.mp hn
    exact .aside (w := s.world) trivial (flushTasks_undisturbed hx)
  | pipe net =>
    obtain ⟨⟨w,x⟩,hx,rfl⟩ := Option.map_eq_some_iff.mp hn
    exact .aside trivial (pipe_undisturbed hx)
  | undo r net now =>
    obtain ⟨⟨w,x⟩,hx,rfl⟩ := Option.map_eq_some_iff.mp hn
    exact .aside trivial (undo_undisturbed hx)

/-- Over the rows a table had, each order a result asked for is either stored or
on its way, and the counter of the orders stored is exact. -/
structure Pipeline.Accounted (rows : List Order) (dbCommitted : UInt64) (s : Pipeline) : Prop where
  batch : s.process.dbBatch.length ≤ dbBatchSize
  balance : (s.posted.filterMap saleRow : Multiset Order) = s.process.waiting + s.stored
  table : s.world.orders = insertOrders rows s.stored
  count : s.process.dbCommitted = dbCommitted + s.stored.length.toUInt64

section Accounted
variable {rows : List Order} {dbCommitted : UInt64} {s t : Pipeline}

theorem Pipeline.Accounted.start (w : World) (dbCommitted : UInt64) :
    (Pipeline.start w dbCommitted).Accounted w.orders dbCommitted where
  batch := Nat.zero_le _
  balance := by
    have hwaiting : (Pipeline.start w dbCommitted).process.waiting = 0 := startConsumer_waiting
    rw [hwaiting]
    rfl
  table := rfl
  count := (UInt64.add_zero _).symm

theorem Pipeline.Accounted.of_eq {x : Instance} {w : World} (h : s.Accounted rows dbCommitted)
    (hx : Undisturbed s.process x s.world w) : (s.setBoth (w,x)).Accounted rows dbCommitted where
  batch := hx.dbBatch ▸ h.batch
  balance := h.balance.trans (congrArg (· + (s.stored : Multiset Order)) hx.waiting.symm)
  table := hx.orders.trans h.table
  count := hx.dbCommitted.trans h.count

theorem Pipeline.Accounted.post (h : s.Accounted rows dbCommitted) (res : CSeckillResult) :
    Pipeline.Accounted rows dbCommitted
      { s with process := s.process.post res, posted := s.posted ++ [res] } where
  batch := h.batch
  balance := by
    rw [waiting_post,add_assoc,← h.balance]
    cases hr : saleRow res <;>
      simp [List.filterMap_append,hr,add_comm,← Multiset.coe_add]
  table := h.table
  count := h.count

theorem Pipeline.Accounted.receiveOrder {x : Instance} (h : s.Accounted rows dbCommitted)
    (hx : s.process.receiveOrder = some x) : (s.setProcess x).Accounted rows dbCommitted := by
  have hwaiting := waiting_receiveOrder hx
  obtain ⟨order,rest,-,hlt,rfl⟩ := receiveOrder_eq hx
  exact ⟨by simpa [Pipeline.setProcess] using hlt,
    h.balance.trans (congrArg (· + (s.stored : Multiset Order)) hwaiting.symm),h.table,h.count⟩

theorem Pipeline.Accounted.flushOrders {x : Instance} {w : World}
    (h : s.Accounted rows dbCommitted) (hx : s.process.flushOrders s.world true = some (w,x)) :
    Pipeline.Accounted rows dbCommitted
      { s.setBoth (w,x) with stored := s.stored ++ s.process.dbBatch } := by
  obtain ⟨-,rfl,rfl⟩ := flushOrders_eq hx
  constructor
  · exact Nat.zero_le _
  · simp only [Pipeline.setBoth,h.balance,Instance.waiting,← Multiset.coe_add,Multiset.coe_nil,
      add_zero]
    abel
  · simp only [Pipeline.setBoth,if_true,h.table,insertOrders_append]
  · simp only [Pipeline.setBoth,h.count,List.length_append,Nat.toUInt64_eq,UInt64.ofNat_add,
      UInt64.add_assoc]

theorem Pipeline.Accounted.next {a : PipelineAct} (h : s.Accounted rows dbCommitted)
    (ha : a.Inserts) (hn : s.next a = some t) : t.Accounted rows dbCommitted := by
  cases Pipeline.next_cases hn with
  | post res => exact h.post res
  | receiveOrder step => exact h.receiveOrder step
  | @flushOrders ok w x step =>
    cases ok with
    | false => exact absurd rfl ha
    | true => exact h.flushOrders step
  | aside act step => exact h.of_eq step

end Accounted

def Pipeline.sales (s : Pipeline) : List CSeckillResult := s.posted.filter (·.status = 1)

theorem filterMap_saleRow {rs : List CSeckillResult}
    (h : ∀ res ∈ rs.filter (·.status = 1), res.requestId ≤ benchmarkLimit) :
    rs.filterMap saleRow = (rs.filter (·.status = 1)).map orderOf := by
  induction rs with
  | nil => rfl
  | cons res rs ih =>
    by_cases hs : res.status = 1
    · simp only [hs,decide_true,List.filter_cons_of_pos,List.forall_mem_cons] at h
      simp [saleRow,hs,h.1,← ih h.2]
    · have hrest : (res :: rs).filter (·.status = 1) = rs.filter (·.status = 1) := by simp [hs]
      rw [hrest] at h ⊢
      simp [saleRow,hs,← ih h]

theorem Instance.Idle.waiting {x : Instance} (h : x.Idle) : x.waiting = 0 := by
  have hworkers : x.workers.filterMap ResultWorker.row = 0 := by
    refine Multiset.eq_zero_of_forall_notMem fun order ho => ?_
    obtain ⟨wk,hwk,hrow⟩ := (Multiset.mem_filterMap ResultWorker.row x.workers).mp ho
    rw [h.workers wk hwk] at hrow
    cases hrow
  simp [Instance.waiting,h.results,h.orderChan,h.dbBatch,hworkers]

section Runs
variable {w : World} {dbCommitted : UInt64} {as : List PipelineAct} {s : Pipeline}

theorem accounted_run (hrun : pipeline.Run (.start w dbCommitted) as s)
    (hok : ∀ a ∈ as, a.Inserts) : s.Accounted w.orders dbCommitted :=
  hrun.invariant_along (fun _ _ _ h ha hn => h.next ha hn)
    (System.along_of_forall fun a ha _ => hok a ha) (.start w dbCommitted)

/-- Once the pipeline is idle, what it stored is a row for each sale and no other. -/
theorem pipeline_lossless (hrun : pipeline.Run (.start w dbCommitted) as s)
    (hok : ∀ a ∈ as, a.Inserts)
    (hlimit : ∀ res ∈ s.sales, res.requestId ≤ benchmarkLimit)
    (hids : (s.sales.map (·.requestId)).Nodup)
    (hnew : ∀ res ∈ s.sales, ∀ row ∈ w.orders, row.id ≠ res.requestId) :
    pipeline.Throughout (fun t => t.process.dbBatch.length ≤ dbBatchSize) (.start w dbCommitted)
      as ∧
    (s.process.Idle → ∃ stored : List Order, s.world.orders = w.orders ++ stored ∧
      stored.Perm (s.sales.map orderOf) ∧
      s.process.dbCommitted = dbCommitted + s.sales.length.toUInt64) := by
  constructor
  · have halong : pipeline.Along (fun _ a => a.Inserts) (.start w dbCommitted) as :=
      System.along_of_forall fun a ha _ => hok a ha
    exact halong.throughout (J := Pipeline.Accounted w.orders dbCommitted) (fun _ h => h.batch)
      (fun _ _ _ h ha hn => h.next ha hn) (.start w dbCommitted)
  · intro hidle
    have h := accounted_run hrun hok
    have hperm : s.stored.Perm (s.sales.map orderOf) := by
      have hbalance := h.balance
      rw [hidle.waiting,zero_add,filterMap_saleRow hlimit] at hbalance
      exact (Multiset.coe_eq_coe.mp hbalance).symm
    have hsame : (s.sales.map orderOf).map (·.id) = s.sales.map (·.requestId) := by simp [orderOf]
    have htable : s.world.orders = w.orders ++ s.stored := by
      rw [h.table]
      refine insertOrders_eq_append ((hperm.map _).nodup_iff.mpr (hsame ▸ hids)) ?_
      intro order ho row hrow
      obtain ⟨res,hres,rfl⟩ := List.mem_map.mp (hperm.mem_iff.mp ho)
      exact hnew res hres row hrow
    refine ⟨s.stored,htable,hperm,?_⟩
    rw [h.count,hperm.length_eq,List.length_map]

end Runs

def soldOutResult : CSeckillResult :=
  { (default : CSeckillResult) with
    skuId := 888, qty := 1, guestId := 8, requestId := 6, status := 2 }

def persistRun : List PipelineAct :=
  [.post saleResult,.post soldOutResult,.poll soldOutResult,.poll saleResult,
    .push (.persist (orderOf saleResult) (taskOf saleResult)),.receiveOrder,
    .push (.cleanup (taskOf soldOutResult)),.flushOrders true,
    .push (.cleanup (taskOf saleResult)),.receiveTask,.receiveTask]

def warmWorld : World := (warmStart : State Unit).world

def persisted : Pipeline := (pipeline.exec (.start warmWorld 0) persistRun).get (by decide +kernel)

theorem persisted_run : pipeline.Run (.start warmWorld 0) persistRun persisted :=
  System.run_of_exec (Option.some_get _).symm

theorem pipeline_lossless_sale :
    pipeline.Throughout (fun t => t.process.dbBatch.length ≤ dbBatchSize) (.start warmWorld 0)
      persistRun ∧
    ∃ stored : List Order, persisted.world.orders = warmWorld.orders ++ stored ∧
      stored.Perm (persisted.sales.map orderOf) ∧ persisted.process.dbCommitted = 0 + 1 := by
  have hsales : persisted.sales = [saleResult] := by decide +kernel
  have hworkers : persisted.process.workers = Multiset.replicate 8 .poll := by decide +kernel
  have hrun := pipeline_lossless persisted_run (by decide +kernel) (by simp [hsales]; decide)
    (by simp [hsales]) (fun _ _ _ hrow => by cases hrow)
  refine ⟨hrun.1,?_⟩
  have hidle : persisted.process.Idle := by
    refine ⟨by decide +kernel,?_,by decide +kernel,by decide +kernel⟩
    intro wk hwk
    exact Multiset.eq_of_mem_replicate (hworkers ▸ hwk)
  simpa [hsales] using hrun.2 hidle

end Flashsale.Backend
