import Flashsale.Backend
import Flashsale.Strconv
import Flashsale.WorkerSteps
set_option autoImplicit false

namespace Flashsale.Cache
open Strconv

/-- `fmt.Sprintf("%d:%d:%d:%d",skuID,userID,qty,reqID)`. -/
def Member.text (m : Member) : List Char :=
  formatInt m.skuId.toInt ++ ':' :: (formatInt m.userId.toNat ++ ':' ::
    (formatInt m.qty.toInt ++ ':' :: formatInt m.reqId.toNat))

section Text
variable {m m' : Member}

theorem colon_not_mem (i : Int) : ':' ∉ formatInt i := by
  intro h
  rcases mem_formatInt h with h | h <;> exact absurd h (by decide)

theorem Member.text_splitOn (m : Member) : m.text.splitOn ':' =
    [formatInt m.skuId.toInt,formatInt m.userId.toNat,formatInt m.qty.toInt,
      formatInt m.reqId.toNat] := by
  simp only [Member.text,List.splitOn_append_cons_self_of_not_mem (colon_not_mem _),
    List.splitOn_eq_singleton (colon_not_mem _)]

theorem Member.text_injective (h : m.text = m'.text) : m = m' := by
  have hsplit := congrArg (List.splitOn ':') h
  simp only [Member.text_splitOn,List.cons.injEq,and_true] at hsplit
  obtain ⟨hsku,huser,hqty,hreq⟩ := hsplit
  cases m
  cases m'
  simp only [Member.mk.injEq]
  exact ⟨Int64.toInt_inj.mp (formatInt_injective hsku),
    UInt64.toNat_inj.mp (Int.ofNat.inj (formatInt_injective huser)),
    Int64.toInt_inj.mp (formatInt_injective hqty),
    UInt64.toNat_inj.mp (Int.ofNat.inj (formatInt_injective hreq))⟩

end Text
end Flashsale.Cache

namespace Flashsale.Backend
open Cache Engine

def resultOf (w : Worker) (req : Request) : CSeckillResult := req.decision (w.deduct req).1

/-- Each step of a request goes by the quantity `q`: the deduction in Redis, that
in the worker's inventory, the order row and the rollbacks of the handler and of
the cleanup; and the cleanup finds the pending member. -/
structure Agreement (g : Gate) (m : Member) (now : Int) (w : Worker) (req : Request) (q : Int) :
    Prop where
  redis : ∀ stock, g.stock = some stock → (g.deduct m now).2.stock = some (stock - q)
  memory : ∀ stock, w.inventory req.skuId = some stock → (w.deduct req).1 = 1 →
    ∃ n, n.toInt = q ∧ (w.deduct req).2.inventory req.skuId = some (stock - n)
  row : (orderOf (resultOf w req)).qty.toInt = q
  rollbacks : ∀ r ∈ [m,(taskOf (resultOf w req)).member], ∀ (g' : Gate) stock,
    g'.stock = some stock → (g'.rollback r).1 = some 1 →
      (g'.rollback r).2.stock = some (stock + q)
  text : (taskOf (resultOf w req)).member.text = m.text
  zrem : ∀ g' : Gate, m ∉ (g'.zrem [(taskOf (resultOf w req)).member]).members
  rollback : ∀ g' : Gate, (g'.rollback (taskOf (resultOf w req)).member).1 = some 1 →
    m ∉ (g'.rollback (taskOf (resultOf w req)).member).2.members

section Agreement
variable {g : Gate} {m : Member} {now : Int} {w : Worker} {req : Request}

theorem taskOf_member (hreq : req.payload = creqOf m) :
    (taskOf (resultOf w req)).member = { m with qty := m.qty.toInt32.toInt64 } := by
  simp only [creqOf,Request.payload,Prod.mk.injEq] at hreq
  obtain ⟨hsku,hqty,huser,hid⟩ := hreq
  simp [taskOf,resultOf,Request.decision,Request.result,CleanupTask.member,hsku,hqty,huser,hid]

theorem rolledBack_of_effective (h : (g.rollback m).1 = some 1) :
    RolledBack g (g.rollback m).2 m := by
  rcases g.rollback_cases m with ⟨-,hback⟩ | ⟨hzero,-⟩ | ⟨hnone,-⟩
  · exact hback
  · rw [hzero] at h
    cases h
  · rw [hnone] at h
    cases h

theorem deduct_one {stock : Int32} (hstock : w.inventory req.skuId = some stock)
    (h : (w.deduct req).1 = 1) :
    (w.deduct req).2.inventory req.skuId = some (stock - req.qty) := by
  by_cases hle : req.qty ≤ stock
  · simp [Worker.deduct,hstock,hle]
  · simp [Worker.deduct,hstock,hle] at h

/-- Gate and engine agree on the quantity of an admitted request exactly if it
has 32 bits. -/
theorem quantity_agrees_iff (hadm : g.Admits m) (hreq : req.payload = creqOf m) :
    (∃ q, Agreement g m now w req q) ↔ m.Fits := by
  have hmember := taskOf_member (w := w) hreq
  constructor
  · rintro ⟨q,h⟩
    have hm := Member.text_injective h.text
    rw [hmember] at hm
    exact congrArg Member.qty hm
  · intro hfits
    rw [hfits] at hmember
    change (taskOf (resultOf w req)).member = m at hmember
    have hqty : req.qty.toInt = m.qty.toInt := by
      rw [← hfits.toInt]
      exact congrArg (fun r : Payload => r.2.1.toInt) hreq
    obtain ⟨-,hdeducted⟩ := (g.deduct_cases m now).resolve_right fun h => by
      have hone := (g.deduct_eq_one m now).mpr hadm
      simp [hone] at h
    refine ⟨m.qty.toInt,fun stock hstock => ?_,fun stock hstock hone => ⟨req.qty,hqty,?_⟩,hqty,
      fun r hr g' stock hstock heff => ?_,by rw [hmember],fun g' => ?_,fun g' heff => ?_⟩
    · obtain ⟨st,hst,-,hleft⟩ := hdeducted.stock
      rw [hstock] at hst
      cases hst
      rw [hleft,hfits.luaQty]
    · exact deduct_one hstock hone
    · obtain rfl : r = m := by simpa [hmember] using hr
      obtain ⟨left,hincr,hleft⟩ := (rolledBack_of_effective heff).stock
      rw [hstock] at hincr
      rw [hleft,incrBy_eq_some hincr,hfits.luaQty]
    · rw [hmember]
      simp
    · rw [hmember] at heff ⊢
      exact fun hm => (((rolledBack_of_effective heff).members m).mp hm).2 rfl

end Agreement

def saleTaken : Request := { zeroRequest with skuId := 999, qty := 1, guestId := 7, requestId := 5 }

theorem quantity_agrees_sale : Agreement (.warmUp 100) sale 0 startWorker saleTaken 1 := by
  have hadm : (Gate.warmUp 100).Admits sale :=
    (Gate.deduct_eq_one _ _ 0).mp (by decide +kernel)
  obtain ⟨q,h⟩ := (@quantity_agrees_iff _ _ 0 startWorker saleTaken hadm (by decide)).mpr
    (by decide)
  have hq : q = 1 := by
    rw [← h.row]
    decide +kernel
  exact hq ▸ h

def bigSale : Member := { sale with qty := 4294967297 }

/-- `EnqueueHandler`, the engine and the whole cleanup of `bigSale`. -/
def bigRun : List (Unit × Act) :=
  [.receive bigSale,.handle (.check bigSale) .answered 0 0,.handle (.deduct bigSale) .answered 0 0,
    .handle (.register bigSale) .answered 0 0,.handle (.enqueue bigSale) .answered 1 0,
    .process (creqOf bigSale) (some saleResult),.poll saleResult,
    .push (.persist (orderOf saleResult) (taskOf saleResult)),
    .push (.cleanup (taskOf saleResult)),.receiveOrder,.flushOrders true,.receiveTask,
    .flushTasks [999],.pipe .answered,.pipe .answered,.pipe .answered].map ((),·)

def bigStart : State Unit := start (fun sku => if sku = 999 then some 8589934592 else none) ∅ []

def bigState : State Unit := (system.exec bigStart bigRun).get (by decide +kernel)

/-- 4294967297 are deducted in Redis, one in the engine and in the order row, and
the pending member stays when the cleanup is done. -/
theorem big_quantity_disagrees :
    system.Run bigStart bigRun bigState ∧
    (bigState.world.redis.gates 999).stock = some (8589934592 - 4294967297) ∧
    bigState.world.orders.map (·.qty) = [1] ∧
    (bigState.world.redis.gates 999).members = [bigSale] ∧
    (bigState.instances ()).map (fun x => (x.cleanupChan,x.cleanupBatch,x.pipeline)) =
      some ([],[],none) ∧
    (Gate.warmUp 8589934592).Admits bigSale ∧ saleTaken.payload = creqOf bigSale ∧
    ¬ ∃ q, Agreement (.warmUp 8589934592) bigSale 0 startWorker saleTaken q := by
  refine ⟨Transition.System.run_of_exec (Option.some_get _).symm,by decide +kernel,by decide +kernel,
    by decide +kernel,by decide +kernel,(Gate.deduct_eq_one _ _ 0).mp (by decide +kernel),by decide,?_⟩
  rintro ⟨q,h⟩
  have hqty := congrArg Member.qty (Member.text_injective h.text)
  revert hqty
  decide +kernel

end Flashsale.Backend
