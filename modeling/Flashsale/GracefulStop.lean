import Flashsale.Pipeline
import Mathlib
set_option autoImplicit false

namespace Flashsale.Backend
open Cache Engine Transition

/-- Where `main` stands; `stopped` is after the return of `StopConsumer`, which has
joined the workers of the engine. -/
inductive Main where
  | serving
  | stopped
  | exited
  deriving DecidableEq

structure Service where
  pipeline : Pipeline
  main : Main

inductive ServiceAct where
  | run (a : PipelineAct)
  | stopConsumer
  | exit
  deriving DecidableEq

def PipelineAct.Posts : PipelineAct → Prop
  | .post _ => True
  | _ => False

instance : DecidablePred PipelineAct.Posts
  | .post _ => isTrue trivial
  | .poll _ | .push _ | .receiveOrder | .flushOrders _ | .receiveTask | .flushTasks _ | .pipe _
  | .undo .. => isFalse id

/-- The goroutines run until `main` returns, the engine's workers until they are joined. -/
def Service.next (s : Service) : ServiceAct → Option Service
  | .run a =>
      if s.main = .exited ∨ a.Posts ∧ s.main = .stopped then none
      else (s.pipeline.next a).map fun p => { s with pipeline := p }
  | .stopConsumer => if s.main = .serving then some { s with main := .stopped } else none
  | .exit => if s.main = .stopped then some { s with main := .exited } else none

def Service.start (w : World) (dbCommitted : UInt64) : Service where
  pipeline := .start w dbCommitted
  main := .serving

def service : System Service ServiceAct where
  init s := ∃ w dbCommitted, s = Service.start w dbCommitted
  next := Service.next

def ServiceAct.Inserts : ServiceAct → Prop
  | .run a => a.Inserts
  | .stopConsumer | .exit => True

instance : DecidablePred ServiceAct.Inserts
  | .run a => inferInstanceAs (Decidable a.Inserts)
  | .stopConsumer | .exit => isTrue trivial

/-- Each sale posted was in a batch whose insert succeeded, and a row has its id. -/
structure Pipeline.Persisted (s : Pipeline) : Prop where
  stored : (s.posted.filterMap saleRow : Multiset Order) ≤ s.stored
  rows : ∀ res ∈ s.posted, (saleRow res).isSome → ∃ row ∈ s.world.orders, row.id = res.requestId

theorem Pipeline.Accounted.persisted_iff {rows : List Order} {dbCommitted : UInt64} {s : Pipeline}
    (h : s.Accounted rows dbCommitted) : s.Persisted ↔ s.process.waiting = 0 := by
  constructor
  · intro hp
    have hle : s.process.waiting + s.stored ≤ 0 + s.stored := by
      rw [← h.balance,zero_add]
      exact hp.stored
    exact Multiset.le_zero.mp (le_of_add_le_add_right hle)
  · intro hw
    have hstored : (s.posted.filterMap saleRow : Multiset Order) = s.stored := by
      rw [h.balance,hw,zero_add]
    refine ⟨hstored.le,fun res hres hsale => ?_⟩
    obtain ⟨order,horder⟩ := Option.isSome_iff_exists.mp hsale
    have hmem : order ∈ s.stored := by
      rw [← Multiset.mem_coe,← hstored,Multiset.mem_coe,List.mem_filterMap]
      exact ⟨res,hres,horder⟩
    obtain ⟨row,hrow,hid⟩ : ∃ row ∈ insertOrders rows s.stored, row.id = order.id :=
      id_mem_insertOrders hmem
    refine ⟨row,h.table ▸ hrow,hid.trans ?_⟩
    unfold saleRow at horder
    split at horder
    · rw [← Option.some.inj horder]
      rfl
    · cases horder

def ExitPersisted (s : Service) : Prop := s.main = .exited → s.pipeline.Persisted

def PipelineAct.postsSale : PipelineAct → Bool
  | .post res => (saleRow res).isSome
  | _ => false

def PipelineAct.receives : PipelineAct → Bool
  | .receiveOrder => true
  | _ => false

def PipelineAct.batched (n : Nat) : PipelineAct → Nat
  | .receiveOrder => n + 1
  | .flushOrders _ => 0
  | _ => n

def ServiceAct.postsSale : ServiceAct → Bool
  | .run a => a.postsSale
  | .stopConsumer | .exit => false

def ServiceAct.receives : ServiceAct → Bool
  | .run a => a.receives
  | .stopConsumer | .exit => false

def ServiceAct.batched (n : Nat) : ServiceAct → Nat
  | .run a => a.batched n
  | .stopConsumer | .exit => n

/-- `dbWorker` receives as many orders as sales are posted, and a flush comes after the
last of them. -/
def FlushedInTime (as : List ServiceAct) : Prop :=
  as.countP ServiceAct.receives = as.countP ServiceAct.postsSale ∧
    as.foldl ServiceAct.batched 0 = 0

instance (as : List ServiceAct) : Decidable (FlushedInTime as) :=
  inferInstanceAs (Decidable (_ ∧ _))

section Counts
variable {s t : Pipeline} {a : PipelineAct}

structure Counted (s t : Pipeline) (posts receives : Nat) (batched : Nat → Nat) : Prop where
  posted : (t.posted.filterMap saleRow).length = (s.posted.filterMap saleRow).length + posts
  received : t.stored.length + t.process.dbBatch.length =
    s.stored.length + s.process.dbBatch.length + receives
  batch : t.process.dbBatch.length = batched s.process.dbBatch.length

theorem Counted.refl (s : Pipeline) : Counted s s 0 0 id := ⟨rfl,rfl,rfl⟩

theorem Counted.trans {r : Pipeline} {m n m' n' : Nat} {f g : Nat → Nat} (h : Counted r s m n f)
    (k : Counted s t m' n' g) : Counted r t (m+m') (n+n') (fun b => g (f b)) where
  posted := by rw [k.posted,h.posted,Nat.add_assoc]
  received := by rw [k.received,h.received,Nat.add_assoc]
  batch := by rw [k.batch,h.batch]

theorem Pipeline.next_counted (ha : a.Inserts) (hn : s.next a = some t) :
    Counted s t a.postsSale.toNat a.receives.toNat (a.batched ·) := by
  cases Pipeline.next_cases hn with
  | post res =>
    refine ⟨?_,rfl,rfl⟩
    cases hr : saleRow res <;> simp [PipelineAct.postsSale,List.filterMap_append,hr]
  | receiveOrder step =>
    obtain ⟨order,rest,-,-,rfl⟩ := receiveOrder_eq step
    refine ⟨rfl,?_,?_⟩
    · simp [Pipeline.setProcess,PipelineAct.receives,Nat.add_assoc]
    · simp [Pipeline.setProcess,PipelineAct.batched]
  | @flushOrders ok w x step =>
    obtain ⟨-,rfl,rfl⟩ := flushOrders_eq step
    cases ok with
    | false => exact absurd rfl ha
    | true => exact ⟨rfl,by simp [Pipeline.setBoth,PipelineAct.receives],rfl⟩
  | @aside a w x act step =>
    have hb : x.dbBatch.length = s.process.dbBatch.length := by rw [step.dbBatch]
    cases a with
    | post res | receiveOrder | flushOrders ok => exact act.elim
    | _ => exact ⟨rfl,congrArg (s.stored.length + ·) hb,hb⟩

end Counts

section Runs
variable {w : World} {dbCommitted : UInt64} {as : List ServiceAct} {s t : Service}

inductive ServiceStep (s : Service) : ServiceAct → Service → Prop where
  | run {a : PipelineAct} {p : Pipeline} (main : s.main ≠ .exited)
      (posts : a.Posts → s.main ≠ .stopped) (step : s.pipeline.next a = some p) :
      ServiceStep s (.run a) { s with pipeline := p }
  | stopConsumer (main : s.main = .serving) :
      ServiceStep s .stopConsumer { s with main := .stopped }
  | exit (main : s.main = .stopped) : ServiceStep s .exit { s with main := .exited }

theorem Service.next_cases {a : ServiceAct} (hn : s.next a = some t) : ServiceStep s a t := by
  cases a with
  | run a =>
    simp only [Service.next] at hn
    split at hn
    · cases hn
    · rename_i hrun
      obtain ⟨p,hp,rfl⟩ := Option.map_eq_some_iff.mp hn
      exact .run (fun he => hrun (.inl he)) (fun ha he => hrun (.inr ⟨ha,he⟩)) hp
  | stopConsumer =>
    simp only [Service.next] at hn
    split at hn
    · cases hn
      exact .stopConsumer ‹_›
    · cases hn
  | exit =>
    simp only [Service.next] at hn
    split at hn
    · cases hn
      exact .exit ‹_›
    · cases hn

theorem service_accounted {rows : List Order} {a : ServiceAct}
    (h : s.pipeline.Accounted rows dbCommitted) (ha : a.Inserts) (hn : s.next a = some t) :
    t.pipeline.Accounted rows dbCommitted := by
  cases Service.next_cases hn with
  | run main posts step => exact h.next ha step
  | stopConsumer main | exit main => exact h

theorem service_counted {a : ServiceAct} (ha : a.Inserts) (hn : s.next a = some t) :
    Counted s.pipeline t.pipeline a.postsSale.toNat a.receives.toNat
      (a.batched ·) := by
  cases Service.next_cases hn with
  | run main posts step => exact Pipeline.next_counted ha step
  | stopConsumer main | exit main => exact .refl _

theorem service_counts (hrun : service.Run s as t) (hok : ∀ a ∈ as, a.Inserts) :
    Counted s.pipeline t.pipeline (as.countP ServiceAct.postsSale) (as.countP ServiceAct.receives)
      (as.foldl ServiceAct.batched) := by
  induction hrun with
  | nil s => exact .refl _
  | @cons s m t a as hn _ ih =>
    have h := (service_counted (hok a (by simp)) hn).trans (ih fun b hb => hok b (by simp [hb]))
    refine ⟨?_,?_,h.batch⟩
    · rw [h.posted,List.countP_cons]
      cases a.postsSale <;> simp [Nat.add_comm]
    · rw [h.received,List.countP_cons]
      cases a.receives <;> simp [Nat.add_comm]

theorem waiting_eq_zero_iff {p : Pipeline} {rows : List Order} (h : p.Accounted rows dbCommitted)
    (hc : Counted (.start w dbCommitted) p (as.countP ServiceAct.postsSale)
      (as.countP ServiceAct.receives) (as.foldl ServiceAct.batched)) :
    p.process.waiting = 0 ↔ FlushedInTime as := by
  have hcard := congrArg Multiset.card h.balance
  have hposted := hc.posted
  have hreceived := hc.received
  have hbatch := hc.batch
  simp only [Pipeline.start,startConsumer,List.length_nil,List.filterMap_nil,Nat.zero_add]
    at hposted hreceived hbatch
  simp only [Instance.waiting,Multiset.card_add,Multiset.coe_card] at hcard
  rw [← Multiset.card_eq_zero]
  simp only [Instance.waiting,Multiset.card_add,Multiset.coe_card,FlushedInTime]
  omega

/-- The sales posted before `main` returns are stored exactly if the goroutines of the
pipeline were given the time to flush them. -/
theorem exit_persists_iff (hrun : service.Run (.start w dbCommitted) as s)
    (hok : ∀ a ∈ as, a.Inserts) :
    ExitPersisted s ↔ (s.main = .exited → FlushedInTime as) := by
  have haccounted : s.pipeline.Accounted w.orders dbCommitted :=
    hrun.invariant_along (I := fun s => s.pipeline.Accounted w.orders dbCommitted)
      (fun _ _ _ h ha hn => service_accounted h ha hn)
      (System.along_of_forall fun a ha _ => hok a ha) (.start w dbCommitted)
  unfold ExitPersisted
  rw [haccounted.persisted_iff,waiting_eq_zero_iff haccounted (service_counts hrun hok)]

end Runs

/-- A sale reaches the batch of `dbWorker`; a tick before the end flushes it, or none does. -/
def exitRun (tick : Bool) : List ServiceAct :=
  ([.post saleResult,.poll saleResult,
    .push (.persist (orderOf saleResult) (taskOf saleResult)),.receiveOrder].map .run ++
    [.stopConsumer]) ++ (if tick then [.run (.flushOrders true)] else []) ++ [.exit]

def exitState (tick : Bool) : Service :=
  ((service.exec (.start warmWorld 0) (exitRun tick)).get (by cases tick <;> decide +kernel))

theorem exitState_run (tick : Bool) :
    service.Run (.start warmWorld 0) (exitRun tick) (exitState tick) :=
  System.run_of_exec (Option.some_get _).symm

theorem exit_persists_ticked : (exitState true).main = .exited ∧ ExitPersisted (exitState true) := by
  have hiff := exit_persists_iff (exitState_run true) (by decide +kernel)
  exact ⟨by decide +kernel,hiff.mpr fun _ => by decide +kernel⟩

/-- `main` returns with a sale in the batch, which is never stored. -/
theorem exit_loses_sale :
    service.Run (.start warmWorld 0) (exitRun false) (exitState false) ∧
    (∀ a ∈ exitRun false, a.Inserts) ∧ (exitState false).main = .exited ∧
    (exitState false).pipeline.posted = [saleResult] ∧
    (exitState false).pipeline.process.dbBatch = [orderOf saleResult] ∧
    (exitState false).pipeline.world.orders = [] :=
  ⟨exitState_run false,by decide +kernel,by decide +kernel,by decide +kernel,by decide +kernel,
    by decide +kernel⟩

end Flashsale.Backend
