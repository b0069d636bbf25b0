import Flashsale.Pipeline
import Mathlib
set_option autoImplicit false

namespace Flashsale.Backend
open Cache Engine Transition

/-- `orderChan` of the process holds the orders still to come, and `received` is
history: those `dbWorker` took. -/
structure DbWorker where
  world : World
  process : Instance
  received : List Order

/-- A flush is a full batch or a tick; `ok` is whether `Create` stored the batch. -/
inductive DbWorkerAct where
  | receiveOrder
  | flushOrders (ok : Bool)
  deriving DecidableEq

def DbWorker.next (s : DbWorker) : DbWorkerAct → Option DbWorker
  | .receiveOrder =>
      s.process.receiveOrder.map fun x =>
        { s with process := x, received := s.received ++ s.process.orderChan.take 1 }
  | .flushOrders ok =>
      (s.process.flushOrders s.world ok).map fun r => { s with world := r.1, process := r.2 }

def DbWorker.start (w : World) (orders : List Order) : DbWorker where
  world := w
  process := { startConsumer with orderChan := orders }
  received := []

def dbWorker : System DbWorker DbWorkerAct where
  init s := ∃ w orders, s = DbWorker.start w orders
  next := DbWorker.next

/-- Over a table that had `rows`: each order received is stored or in the batch,
and `DBCommitted` is the number of orders stored. -/
structure DbWorker.Kept (rows : List Order) (s : DbWorker) : Prop where
  held : ∀ o ∈ s.received, o ∈ s.world.orders ∨ o ∈ s.process.dbBatch
  count : s.process.dbCommitted = (s.world.orders.length - rows.length).toUInt64

structure DbWorker.Exact (rows orders : List Order) (s : DbWorker) : Prop where
  batch : s.process.dbBatch.length ≤ dbBatchSize
  channel : s.received ++ s.process.orderChan = orders
  stored : ∃ stored, s.received = stored ++ s.process.dbBatch ∧ s.world.orders = rows ++ stored ∧
    s.process.dbCommitted = stored.length.toUInt64

section Exact
variable {rows orders : List Order} {s t : DbWorker}

theorem DbWorker.Exact.start (w : World) (orders : List Order) :
    (DbWorker.start w orders).Exact w.orders orders where
  batch := Nat.zero_le _
  channel := rfl
  stored := ⟨[],rfl,(List.append_nil _).symm,rfl⟩

theorem DbWorker.Exact.kept (h : s.Exact rows orders) : s.Kept rows := by
  obtain ⟨stored,hreceived,htable,hcount⟩ := h.stored
  constructor
  · intro o ho
    rw [hreceived] at ho
    rcases List.mem_append.mp ho with ho | ho
    · exact .inl (htable ▸ List.mem_append_right _ ho)
    · exact .inr ho
  · rw [hcount,htable,List.length_append,Nat.add_sub_cancel_left]

theorem DbWorker.Exact.next {a : DbWorkerAct} (hkeys : ((rows ++ orders).map (·.id)).Nodup)
    (h : s.Exact rows orders) (ha : a ≠ .flushOrders false) (hn : s.next a = some t) :
    t.Exact rows orders := by
  obtain ⟨stored,hreceived,htable,hcount⟩ := h.stored
  cases a with
  | receiveOrder =>
    obtain ⟨x,hx,rfl⟩ := Option.map_eq_some_iff.mp hn
    obtain ⟨order,rest,hchan,hlt,rfl⟩ := receiveOrder_eq hx
    have hchannel := h.channel
    rw [hchan] at hchannel
    exact ⟨by simpa using hlt,by simpa [hchan] using hchannel,
      stored,by simp [hchan,hreceived],htable,hcount⟩
  | flushOrders ok =>
    cases ok with
    | false => exact absurd rfl ha
    | true =>
      obtain ⟨⟨w,x⟩,hx,rfl⟩ := Option.map_eq_some_iff.mp hn
      obtain ⟨-,rfl,rfl⟩ := flushOrders_eq hx
      have hall : rows ++ orders = rows ++ stored ++ (s.process.dbBatch ++ s.process.orderChan) := by
        rw [← h.channel,hreceived]
        simp
      rw [hall,← htable,List.map_append,List.nodup_append,List.map_append,List.nodup_append] at hkeys
      obtain ⟨-,⟨hbatch,-,-⟩,hnew⟩ := hkeys
      have hinsert : insertOrders s.world.orders s.process.dbBatch =
          s.world.orders ++ s.process.dbBatch := by
        refine insertOrders_eq_append hbatch fun o ho row hrow => ?_
        exact hnew row.id (List.mem_map_of_mem hrow) o.id
          (List.mem_append_left _ (List.mem_map_of_mem ho))
      refine ⟨Nat.zero_le _,h.channel,stored ++ s.process.dbBatch,?_,?_,?_⟩
      · simpa using hreceived
      · change insertOrders s.world.orders s.process.dbBatch = _
        rw [hinsert,htable,List.append_assoc]
      · simp only [hcount,List.length_append,Nat.toUInt64_eq,UInt64.ofNat_add]

theorem DbWorker.Exact.inserted {a : DbWorkerAct} (h : s.Exact rows orders)
    (hn : s.next a = some t) (ht : t.Kept rows) : a ≠ .flushOrders false := by
  rintro rfl
  obtain ⟨stored,-,htable,hcount⟩ := h.stored
  obtain ⟨⟨w,x⟩,hx,rfl⟩ := Option.map_eq_some_iff.mp hn
  obtain ⟨hne,rfl,rfl⟩ := flushOrders_eq hx
  have hsame := ht.count
  simp only [Bool.false_eq_true,if_false,htable,hcount,List.length_append,
    Nat.add_sub_cancel_left] at hsame
  have hzero : s.process.dbBatch.length.toUInt64 = 0 := by simpa using hsame
  have hlt : s.process.dbBatch.length < 2^64 := lt_of_le_of_lt h.batch (by decide)
  have hlen : s.process.dbBatch.length = 0 := by
    have hnat : s.process.dbBatch.length % 2^64 = 0 := congrArg UInt64.toNat hzero
    omega
  exact hne (List.length_eq_zero_iff.mp hlen)

end Exact

theorem kept_iff_inserted {w : World} {orders : List Order} {as : List DbWorkerAct} {s : DbWorker}
    (hkeys : ((w.orders ++ orders).map (·.id)).Nodup)
    (hrun : dbWorker.Run (.start w orders) as s) :
    dbWorker.Along (fun _ a => a ≠ .flushOrders false) (.start w orders) as ↔
      dbWorker.Throughout (DbWorker.Kept w.orders) (.start w orders) as :=
  System.along_iff_throughout (J := DbWorker.Exact w.orders orders) (fun _ h => h.kept)
    (fun _ _ _ h ha hn => h.next hkeys ha hn) (fun _ _ _ h hn ht => h.inserted hn ht) hrun
    (.start w orders)

/-- An id that the driver of the database takes for a negative one. -/
def highOrder : Order := { id := 0x8000000000000001, skuId := 999, guestId := 8, qty := 1, status := 1 }

def saleOrder : Order := orderOf saleResult

def flushRun (ok : Bool) : List DbWorkerAct := [.receiveOrder,.receiveOrder,.flushOrders ok]

def flushState (ok : Bool) : DbWorker :=
  ((dbWorker.exec (.start warmWorld [saleOrder,highOrder]) (flushRun ok)).get
    (by cases ok <;> decide +kernel))

theorem flushState_run (ok : Bool) :
    dbWorker.Run (.start warmWorld [saleOrder,highOrder]) (flushRun ok) (flushState ok) :=
  System.run_of_exec (Option.some_get _).symm

theorem kept_iff_inserted_two :
    dbWorker.Throughout (DbWorker.Kept []) (.start warmWorld [saleOrder,highOrder])
      (flushRun true) := by
  have hiff := kept_iff_inserted (w := warmWorld) (by decide +kernel) (flushState_run true)
  exact hiff.mp (by decide +kernel)

/-- The batch of `highOrder` fails, and the order of another guest is lost with it. -/
theorem failed_insert_loses_orders :
    ((warmWorld.orders ++ [saleOrder,highOrder]).map (·.id)).Nodup ∧
    dbWorker.Run (.start warmWorld [saleOrder,highOrder]) (flushRun false) (flushState false) ∧
    saleOrder ∈ (flushState false).received ∧ saleOrder ∉ (flushState false).world.orders ∧
    saleOrder ∉ (flushState false).process.dbBatch ∧
    (flushState false).process.dbCommitted = 2 ∧ (flushState false).world.orders = [] :=
  ⟨by decide +kernel,flushState_run false,by decide +kernel,by decide +kernel,by decide +kernel,
    by decide +kernel,by decide +kernel⟩

end Flashsale.Backend
