import Flashsale.CoreEngineDrain
import Flashsale.CoreEngineSales
import Flashsale.CoreEngineStop
import Mathlib
set_option autoImplicit false

namespace Flashsale.CoreEngine
open Transition
open Engine (barrierId)
variable {κ : Type}

def Nonnegative (req : Request) : Prop := 0 ≤ req.qty.toInt

def Single (req : Request) : Prop := req.qty = 1

instance (req : Request) : Decidable (Nonnegative req) := inferInstanceAs (Decidable (0 ≤ req.qty.toInt))

instance (req : Request) : Decidable (Single req) := inferInstanceAs (Decidable (req.qty = 1))

/-- How much of `sku` is sold by the results posted or in a worker's hand. -/
def State.sold (e : State κ) (sku : Int64) : Int :=
  ∑ i, CoreEngine.sold sku (posted e.shared.resultQueue i ++
    ((e.workers i).inHand e.shared.resultQueue i).toList)

theorem initialInventory_nonneg {sku : Int64} {n : Int32} (h : initialInventory sku = some n) :
    0 ≤ n.toInt := by
  simp only [initialInventory] at h
  repeat' split at h
  all_goals cases h
  all_goals decide

theorem Request.of_targets {req : Request} {i : WorkerId} (h : i ∈ req.targets)
    (hid : req.requestId ≠ barrierId) : i = workerIdx req.skuId := by
  simpa [Request.targets,hid] using h

section Stock
variable [DecidableEq κ] {e e' : State κ} {ok : Request → Prop} {i : WorkerId} {sku : Int64} {n : Int32}

theorem reachable_processed (h : system.Reachable e) (i : WorkerId) :
    (e.workers i).processed.Sublist (routed i e.accepted) := by
  obtain ⟨hi,hsend⟩ := reachable_flow h
  exact hsend.processed_sublist hi i

theorem Session.processed {req : Request} (h : Session ok e) (hreq : req ∈ (e.workers i).processed) :
    (ok req ∨ req = barrierRequest) ∧ (req.requestId ≠ barrierId → i = workerIdx req.skuId) := by
  obtain ⟨hacc,htarget⟩ := mem_routed.mp ((reachable_processed h.reachable i).subset hreq)
  exact ⟨h.clients.accepted req hacc,Request.of_targets htarget⟩

theorem Session.nonnegative (h : Session Nonnegative e) {req : Request}
    (hreq : req ∈ (e.workers i).processed) : 0 ≤ req.qty.toInt := by
  rcases (h.processed hreq).1 with hq | rfl
  · exact hq
  · exact Int.le_refl 0

theorem inventory_eq (h : system.Reachable e) (i : WorkerId) :
    (e.workers i).inventory = (Shop.opened.after (e.workers i).processed).stock :=
  congrArg Shop.stock ((reachable_sales h).serving i).shop

theorem Session.sold_eq (h : Session ok e) :
    e.sold sku = CoreEngine.sold sku (Shop.opened.answers (e.workers (workerIdx sku)).processed) := by
  have hs := reachable_sales h.reachable
  have hrest : ∀ i ∈ Finset.univ, i ≠ workerIdx sku →
      CoreEngine.sold sku (Shop.opened.answers (e.workers i).processed) = 0 := fun i _ hi =>
    sold_eq_zero fun res hres hsku => by
      obtain ⟨req,hreq,hid,status,rfl⟩ := Shop.answers_of hres
      have hsku' : req.skuId = sku := hsku
      exact hi (hsku' ▸ (h.processed hreq).2 hid)
  simp only [State.sold,(hs.serving _).answers_eq]
  exact Finset.sum_eq_single _ hrest fun habs => absurd (Finset.mem_univ _) habs

/-- However the threads are interleaved, what the worker of an item has left of it and
what was sold of it make up the stock at the start. -/
theorem never_oversold (h : Session Nonnegative e) (hsku : initialInventory sku = some n) :
    ∃ m, (e.workers (workerIdx sku)).inventory sku = some m ∧ 0 ≤ m.toInt ∧
      m.toInt + e.sold sku = n.toInt := by
  have hq : ∀ req ∈ (e.workers (workerIdx sku)).processed, 0 ≤ req.qty.toInt :=
    fun _ => h.nonnegative
  rw [inventory_eq h.reachable,h.sold_eq]
  exact Shop.balance hq hsku (initialInventory_nonneg hsku)

def sixRequests : List Request :=
  [⟨888,1,7,1⟩,⟨888,1,7,2⟩,⟨888,1,7,3⟩,⟨888,1,7,4⟩,⟨888,1,7,5⟩,⟨888,1,7,6⟩]

def soldActs : List (Act Bool) :=
  .start true (.enqueueBatch sixRequests) :: List.replicate 44 (.client true false) ++
    List.replicate 120 (.dispatch false) ++ List.replicate 68 (.work 0 wholeWrite false)

def soldState : State Bool :=
  (system.exec (initEngine true 0) soldActs).get (by decide +kernel)

theorem soldState_session {ok : Request → Prop} (hok : ∀ a ∈ soldActs, ∀ req ∈ a.requests, ok req) :
    Session ok soldState :=
  ⟨true,0,soldActs,System.run_of_exec (Option.some_get _).symm,
    System.along_of_forall fun a ha _ => hok a ha⟩

theorem never_oversold_six : ∃ m, (soldState.workers (workerIdx 888)).inventory 888 = some m ∧
    0 ≤ m.toInt ∧ m.toInt + soldState.sold 888 = 5 :=
  have hses : Session Nonnegative soldState := soldState_session (by decide +kernel)
  have hsku : initialInventory 888 = some 5 := rfl
  never_oversold hses hsku

/-- Where the clients ask for one piece at a time and repeat no id, the worker of an item
sells one to each of them as long as it has any. -/
theorem sells_while_stocked (h : Session Single e) (hnodup : (ordinaryIds e.accepted).Nodup)
    (hsku : initialInventory sku = some n) :
    e.sold sku = min n.toInt (asked sku (e.workers (workerIdx sku)).processed) := by
  have hsub : (e.workers (workerIdx sku)).processed.Sublist e.accepted :=
    (reachable_processed h.reachable _).trans List.filter_sublist
  rw [h.sold_eq]
  refine Shop.sells (fun req hreq hid => ?_) ?_ (fun _ _ => List.not_mem_nil) hsku
    (initialInventory_nonneg hsku)
  · rcases (h.processed hreq).1 with hq | rfl
    · exact hq
    · exact absurd rfl hid
  · exact hnodup.sublist ((hsub.filter _).map _)

theorem sells_while_stocked_six : soldState.sold 888 =
    min (Int32.toInt 5) (asked 888 (soldState.workers (workerIdx 888)).processed) :=
  have hses : Session Single soldState := soldState_session (by decide +kernel)
  have hsku : initialInventory 888 = some 5 := rfl
  sells_while_stocked hses (by decide +kernel) hsku

theorem Session.stays_empty {a : Act κ} (h : Session Nonnegative e) (h' : Session Nonnegative e')
    (hn : e.next a = some e') (h0 : (e.workers i).inventory sku = some 0) :
    (e'.workers i).inventory sku = some 0 := by
  obtain ⟨more,hmore⟩ := State.next_processed hn i
  have hq : ∀ req ∈ more, 0 ≤ req.qty.toInt := fun req hreq =>
    h'.nonnegative (i := i) (hmore ▸ List.mem_append_right _ hreq)
  rw [inventory_eq h.reachable] at h0
  rw [inventory_eq h'.reachable,← hmore,Shop.after_append]
  exact Shop.sold_out hq h0

end Stock

section Flags
variable {e e' : State κ} {w w' : Worker} {sh sh' : Shared κ} {i : WorkerId}

theorem Shared.storeFlag_soldOut (sh : Shared κ) (w : Worker) (k sku : Int64) :
    (sh.storeFlag w k).soldOut sku =
      if sku = k ∧ w.inventory k = some 0 then (sh.soldOut sku).map fun _ => true
      else sh.soldOut sku := by
  unfold Shared.storeFlag
  by_cases h0 : w.inventory k = some 0
  · by_cases hsku : sku = k
    · subst hsku
      cases hf : sh.soldOut sku <;> simp [h0,hf]
    · cases sh.soldOut k <;> simp [h0,hsku]
  · simp [h0]

theorem Shared.storeFlag_mono {k sku : Int64} (h : sh.soldOut sku = some true) :
    (sh.storeFlag w k).soldOut sku = some true := by
  rw [Shared.storeFlag_soldOut,h]
  split <;> rfl

/-- The worker has decided on a request for `sku`, and is about to store its flag. -/
def Worker.Flagging (w : Worker) (sku : Int64) : Prop :=
  ∃ req res items count, w.pc = .flag req res items count ∧ req.skuId = sku

inductive FlagStep (w : Worker) (sh sh' : Shared κ) (w' : Worker) : Prop where
  | quiet (soldOut : sh'.soldOut = sh.soldOut) (pc : ∀ sku, ¬ w.Flagging sku)
      (inventory : ∀ sku, w'.inventory sku = w.inventory sku ∨ w'.Flagging sku)
  | store (req : Request) (res : CSeckillResult) (items : List Request) (count : Nat)
      (pc : w.pc = .flag req res items count)
      (soldOut : sh'.soldOut = (sh.storeFlag w req.skuId).soldOut)
      (inventory : w'.inventory = w.inventory)

theorem Worker.deduct_inventory {req : Request} {sku : Int64} (h : sku ≠ req.skuId) :
    (w.deduct req).2.inventory sku = w.inventory sku := by
  unfold Worker.deduct
  split
  · split <;> simp [h]
  · rfl

theorem ProcessStep.inventory {req : Request} {items : List Request} {count : Nat}
    (hs : ProcessStep w sh req items count sh' w') (sku : Int64) :
    w'.inventory sku = w.inventory sku ∨ w'.Flagging sku := by
  cases hs with
  | barrier id | duplicate id seen => exact .inl rfl
  | decided id fresh =>
    by_cases hsku : sku = req.skuId
    · exact .inr ⟨req,_,items,count,rfl,hsku.symm⟩
    · exact .inl (Worker.deduct_inventory hsku)

/-- The flag of an item is set only where its worker has none left, and is so as soon as
the worker has passed the place that stores it. -/
structure Flags (e : State κ) : Prop where
  empty : ∀ sku, e.shared.soldOut sku = some true →
    (e.workers (workerIdx sku)).inventory sku = some 0
  listed : ∀ sku n, initialInventory sku = some n → (e.shared.soldOut sku).isSome
  stored : ∀ sku n, initialInventory sku = some n →
    (e.workers (workerIdx sku)).inventory sku = some 0 →
    e.shared.soldOut sku = some true ∨ (e.workers (workerIdx sku)).Flagging sku

theorem initEngine_flags (checkCorrectness : Bool) (barrierReached : UInt64) :
    Flags (initEngine checkCorrectness barrierReached : State κ) where
  empty sku h := by
    simp only [initEngine,sessionFlags] at h
    split at h <;> cases h
  listed sku n h := by
    simp only [initEngine,sessionFlags,initialInventory] at h ⊢
    repeat' split at h
    all_goals simp_all
  stored sku n h h0 := by
    simp only [initEngine,startWorker,initialInventory] at h0
    repeat' split at h0
    all_goals cases h0

variable [DecidableEq κ]

theorem WorkStep.flags (hs : WorkStep w sh i sh' w') : FlagStep w sh sh' w' := by
  cases hs with
  | @flag req res items count wr pc =>
    obtain ⟨wal,hwal⟩ := w.journal_eq req res wr
    exact .store req res items count pc rfl (by rw [hwal])
  | process pc step =>
    refine .quiet ?_ (by simp [Worker.Flagging,pc]) step.inventory
    cases step <;> rfl
  | ask recheck pc _ _ =>
    refine .quiet rfl (fun sku => ?_) fun _ => .inl rfl
    cases recheck <;> simp [Worker.Flagging,pc]
  | empty _ pc _ | taken _ pc _ | consume _ pc _ | again pc _ | busy pc | idle pc | offer pc _
  | published pc _ | refused pc _ | publish _ pc _ | addCount pc =>
    exact .quiet rfl (by simp [Worker.Flagging,pc]) fun _ => .inl rfl

theorem Flags.work {i : WorkerId} {wr : WalWrite} {b : Bool} (h : Flags e) (hs : Session Nonnegative e)
    (hs' : Session Nonnegative e') (hn : e.next (.work i wr b) = some e') : Flags e' := by
  have hempty : ∀ sku, (e.workers (workerIdx sku)).inventory sku = some 0 →
      (e'.workers (workerIdx sku)).inventory sku = some 0 := fun _ => hs.stays_empty hs' hn
  obtain ⟨⟨sh,w⟩,hw,rfl⟩ := Option.map_eq_some_iff.mp hn
  have hserve := (reachable_sales hs.reachable).serving i
  cases (Worker.step_cases hw).flags with
  | quiet soldOut pc inventory =>
    refine ⟨fun sku hf => hempty sku (h.empty sku (soldOut ▸ hf)),?_,fun sku n hsku h0 => ?_⟩
    · rw [soldOut]
      exact h.listed
    · rw [soldOut]
      by_cases hi : workerIdx sku = i
      · subst hi
        simp only [Function.update_self] at h0 ⊢
        rcases inventory sku with hsame | hflag
        · exact .inl ((h.stored sku n hsku (hsame ▸ h0)).resolve_right (pc sku))
        · exact .inr hflag
      · simp only [Function.update_of_ne hi] at h0 ⊢
        exact h.stored sku n hsku h0
  | store req res items count pc soldOut inventory =>
    obtain ⟨hreq,hid,-⟩ := hserve.flagged req res items count pc
    have howner : i = workerIdx req.skuId := (hs.processed hreq).2 hid
    refine ⟨fun sku hf => hempty sku ?_,fun sku n hsku => ?_,fun sku n hsku h0 => ?_⟩
    · rw [soldOut,Shared.storeFlag_soldOut] at hf
      split at hf
      · rename_i hzero
        obtain ⟨rfl,hzero⟩ := hzero
        exact howner ▸ hzero
      · exact h.empty sku hf
    · have hlisted := h.listed sku n hsku
      rw [soldOut,Shared.storeFlag_soldOut]
      split
      · simpa using hlisted
      · exact hlisted
    · rw [soldOut]
      by_cases hi : workerIdx sku = i
      · subst hi
        simp only [Function.update_self,inventory] at h0
        rcases h.stored sku n hsku h0 with hf | ⟨req',res',items',count',hpc,hsku'⟩
        · exact .inl (Shared.storeFlag_mono hf)
        · rw [pc] at hpc
          cases hpc
          subst hsku'
          obtain ⟨v,hv⟩ := Option.isSome_iff_exists.mp (h.listed _ n hsku)
          refine .inl ?_
          rw [Shared.storeFlag_soldOut,if_pos ⟨rfl,h0⟩,hv]
          rfl
      · simp only [Function.update_of_ne hi] at h0 ⊢
        exact (h.stored sku n hsku h0).imp_left Shared.storeFlag_mono

theorem Flags.next {a : Act κ} (h : Flags e) (hs : Session Nonnegative e) (hs' : Session Nonnegative e')
    (hn : e.next a = some e') : Flags e' := by
  by_cases hwork : ∃ i wr b, a = .work i wr b
  · obtain ⟨i,wr,b,rfl⟩ := hwork
    exact h.work hs hs' hn
  · obtain ⟨hbooks,hsold,-⟩ := State.next_books hn fun i wr b ha => hwork ⟨i,wr,b,ha⟩
    have hinv : ∀ i, (e'.workers i).inventory = (e.workers i).inventory := fun i =>
      congrArg (·.1) (hbooks i)
    have hpc : ∀ i, (e'.workers i).pc = (e.workers i).pc := fun i => congrArg (·.2.2.2.2.1) (hbooks i)
    refine ⟨?_,?_,?_⟩
    · simpa only [hinv,hsold] using h.empty
    · simpa only [hsold] using h.listed
    · simpa only [hinv,hsold,Worker.Flagging,hpc] using h.stored

theorem Session.flags (h : Session Nonnegative e) : Flags e :=
  h.invariant (I := Flags) initEngine_flags fun _ _ _ hs hs' hn hf => hf.next hs hs' hn

/-- The flag of a listed item says that it is sold out where it is, but for the time
between the worker's decision and its store. -/
theorem flag_exact {sku : Int64} {n : Int32} (h : Session Nonnegative e)
    (hsku : initialInventory sku = some n) :
    (e.shared.soldOut sku = some true → (e.workers (workerIdx sku)).inventory sku = some 0) ∧
    (¬ (e.workers (workerIdx sku)).Flagging sku →
      (e.shared.soldOut sku = some true ↔ (e.workers (workerIdx sku)).inventory sku = some 0)) :=
  have hf := h.flags
  ⟨hf.empty sku,fun hflag => ⟨hf.empty sku,fun h0 => (hf.stored sku n hsku h0).resolve_right hflag⟩⟩

theorem flag_exact_six : soldState.shared.soldOut 888 = some true ↔
    (soldState.workers (workerIdx 888)).inventory 888 = some 0 := by
  have hses : Session Nonnegative soldState := soldState_session (by decide +kernel)
  have hsku : initialInventory 888 = some 5 := rfl
  have hpc : (soldState.workers (workerIdx 888)).pc = .batch := by decide +kernel
  exact (flag_exact hses hsku).2 (by simp [Worker.Flagging,hpc])

theorem State.next_flags {a : Act κ} {sku : Int64} (hn : e.next a = some e')
    (h : e.shared.soldOut sku = some true) : e'.shared.soldOut sku = some true := by
  by_cases hwork : ∃ i wr b, a = .work i wr b
  · obtain ⟨i,wr,b,rfl⟩ := hwork
    obtain ⟨⟨sh,w⟩,hw,rfl⟩ := Option.map_eq_some_iff.mp hn
    cases (Worker.step_cases hw).flags with
    | quiet soldOut _ _ => exact soldOut ▸ h
    | store req res items count _ soldOut _ => exact soldOut ▸ Shared.storeFlag_mono h
  · rw [(State.next_books hn fun i wr b ha => hwork ⟨i,wr,b,ha⟩).2.1]
    exact h

end Flags

section Callers
variable [DecidableEq κ] {e e' s : State κ} {c : κ} {creq : Request} {i : WorkerId}

def State.Refuses (e : State κ) (creq : Request) (c : κ) : Prop :=
  match e.calls c with
  | .requestTestRunning req | .testFlag req => req = creq
  | .enqueue todo n => n + todo.length ≤ 1
  | .enqueuing todo n => todo ≠ [] ∧ n + todo.length ≤ 1
  | .ret n => n = 2 → e.shared.soldOut creq.skuId = some true
  | _ => False

theorem State.Refuses.client (h : e.Refuses creq c) (hs : ClientStep e c e') : e'.Refuses creq c := by
  unfold State.Refuses at h ⊢
  cases hs with
  | requestTest req pc =>
    simp only [pc] at h
    rw [State.setCall_calls_self]
    by_cases hr : e.running = true
    · simpa only [hr,if_true] using h
    · simp [hr]
  | testFlag req pc =>
    simp only [pc] at h
    subst h
    rw [State.setCall_calls_self]
    by_cases hflag : e.shared.soldOut req.skuId = some true
    · simp only [hflag,if_true]
      exact fun _ => hflag
    · simp [hflag]
  | finish n pc =>
    simp only [pc,List.length_nil] at h
    rw [State.setCall_calls_self]
    intro hn
    omega
  | attempt req todo n pc idle =>
    simp only [pc] at h
    rw [State.setCall_calls_self]
    exact ⟨List.cons_ne_nil _ _,h⟩
  | access k b q pc next =>
    rcases pc with ⟨todo,pc⟩ | pc
    · simpa [pc] using h
    · simp [pc] at h
  | accepted todo n t data pc ret =>
    simp only [pc] at h
    obtain ⟨hne,hlen⟩ := h
    have hpos := List.length_pos_iff.mpr hne
    rw [State.setCall_calls_self]
    simp only [List.length_tail]
    omega
  | full todo n data pc ret =>
    simp only [pc] at h
    obtain ⟨hne,hlen⟩ := h
    have hpos := List.length_pos_iff.mpr hne
    rw [State.setCall_calls_self]
    intro hn
    omega
  | batchTest reqs pc | reentered pc | enter pc | reset pc | signal k pc | signalled k t data pc
  | unsignalled k data pc | reached pc | waiting pc | stillRunning pc | stopped pc | leave pc
  | checkOff enabled pc off | checkOn enabled pc on
  | resetExpectedSeq pc | resetGapCount pc | resetDupCount pc | resetLastSeqSeen pc
  | loadLastSeqSeen pc | loadGapCount lastSeq pc | loadDupCount lastSeq gap pc
  | polled won pc | poll b q pc =>
    simp [pc] at h

theorem State.Refuses.next {a : Act κ} {ok : Request → Prop} (h : e.Refuses creq c) (hc : Clients ok e)
    (hi : Ingress e) (hn : e.next a = some e') : e'.Refuses creq c := by
  by_cases hclient : ∃ b, a = .client c b
  · obtain ⟨b,rfl⟩ := hclient
    exact h.client (State.client_cases hn)
  · have hbusy : e.calls c ≠ .idle := fun hidle => by simp [State.Refuses,hidle] at h
    obtain ⟨hcalls,-,-⟩ := (State.next_calls hi hn).frame hc hbusy fun b hb => hclient ⟨b,hb⟩
    unfold State.Refuses at h ⊢
    rw [hcalls]
    cases hcall : e.calls c with
    | ret n =>
      simp only [hcall] at h
      exact fun hret => State.next_flags hn (h hret)
    | requestTestRunning req | testFlag req | enqueue todo n | enqueuing todo n =>
      simpa only [hcall] using h
    | _ => simp [hcall] at h

/-- A caller is told that an item is sold out only where its worker has none left. -/
theorem refused_sold_out {as : List (Act κ)} (h : Session Nonnegative s)
    (hr : system.Run s (.start c (.enqueueRequest creq) :: as) e)
    (ha : system.Along (Admits Nonnegative) s (.start c (.enqueueRequest creq) :: as))
    (hret : e.calls c = .ret 2) :
    (e.workers (workerIdx creq.skuId)).inventory creq.skuId = some 0 := by
  have hflag : e.shared.soldOut creq.skuId = some true := by
    cases hr with
    | @cons _ t _ _ _ hn hr =>
      have ht : t.Refuses creq c := by
        have hstart : s.start c (.enqueueRequest creq) = some t := hn
        simp only [State.start] at hstart
        split at hstart
        · cases hstart
          rw [State.Refuses,State.setCall_calls_self]
        · cases hstart
      have he : e.Refuses creq c := (h.reachable.step hn).invariant_run
        (I := fun e => e.Refuses creq c)
        (fun _ _ _ hu hb hv => hb.next (reachable_clients hu) (reachable_flow hu).1 hv) hr ht
      rw [State.Refuses,hret] at he
      exact he rfl
  exact (h.run hr ha).flags.empty _ hflag

def lateRequest : Request := ⟨888,1,8,9⟩

def lateActs : List (Act Bool) :=
  .start false (.enqueueRequest lateRequest) :: List.replicate 2 (.client false false)

def refusedState : State Bool := (system.exec soldState lateActs).get (by decide +kernel)

theorem refused_sold_out_six : refusedState.calls false = .ret 2 ∧
    (refusedState.workers (workerIdx lateRequest.skuId)).inventory lateRequest.skuId = some 0 :=
  have hses : Session Nonnegative soldState := soldState_session (by decide +kernel)
  have hrun : system.Run soldState lateActs refusedState := System.run_of_exec (Option.some_get _).symm
  have hok : ∀ a ∈ lateActs, ∀ req ∈ a.requests, Nonnegative req := by decide +kernel
  have hret : refusedState.calls false = .ret 2 := by decide +kernel
  ⟨hret,refused_sold_out hses hrun (System.along_of_forall fun a ha _ => hok a ha) hret⟩

omit [DecidableEq κ] in
theorem Serving.posted_of_prefix {w : Worker} {q : ResultQueue κ} {reqs : List Request} {req : Request}
    (h : Serving w q i) (hproc : reqs ++ [req] <+: w.processed) :
    Shop.opened.answers reqs <+: posted q i := by
  cases hh : w.inHand q i with
  | none =>
    rw [h.settled hh]
    exact Shop.answers_prefix ((List.prefix_append _ _).trans hproc)
  | some res =>
    obtain ⟨served,last,heq,hposted,-⟩ := h.pending res hh
    rw [heq] at hproc
    have hlen := hproc.length_le
    simp only [List.length_append,List.length_singleton] at hlen
    rw [hposted]
    exact Shop.answers_prefix (List.prefix_of_prefix_length_le
      ((List.prefix_append _ _).trans hproc) (List.prefix_append _ _) (by omega))

/-- When a call of `WaitEngineDrained` returns while the engine runs, the answers to all
that had been accepted when it was let in are in the result queue, as the workers' shops
give them. -/
theorem drain_settles {as : List (Act κ)} {b : Bool} {n : Nat} (h : Session Ordinary s)
    (hcall : s.calls c = .enterDrain) (hin : s.inside = false)
    (hrun : system.Run s (.client c b :: as) e)
    (ha : system.Along (Admits Ordinary) s (.client c b :: as)) (hr : e.running = true)
    (hret : e.calls c = .ret n) (i : WorkerId) :
    Shop.opened.answers (routed i s.accepted) <+: posted e.shared.resultQueue i := by
  have htracks := h.tracks hcall hin hrun ha hr
  simp only [State.Tracks,hret] at htracks
  obtain ⟨rs,-,hproc⟩ := htracks
  have hbarrier : routed i [barrierRequest] = [barrierRequest] := by
    simp [routed,barrierRequest,Request.targets]
  have hi := hproc i
  rw [routed_append,hbarrier] at hi
  have hserve := (reachable_sales (h.reachable.run hrun)).serving i
  refine (Shop.answers_prefix ?_).trans (hserve.posted_of_prefix hi)
  rw [routed_append]
  exact List.prefix_append _ _

theorem drain_settles_three :
    Shop.opened.answers (routed 3 drainStart.accepted) = [⟨123,1,7,1,1⟩,⟨999,2,7,2,1⟩] ∧
    Shop.opened.answers (routed 3 drainStart.accepted) <+: posted drainEnd.shared.resultQueue 3 :=
  have hord : ∀ a ∈ Act.client false false :: drainRest, ∀ req ∈ a.requests, Ordinary req := by
    decide +kernel
  have hrun : system.Run drainStart (.client false false :: drainRest) drainEnd :=
    System.run_of_exec (Option.some_get _).symm
  have hret : drainEnd.calls false = .ret 0 := by decide +kernel
  ⟨by decide +kernel,drain_settles drainStart_session (by decide +kernel) (by decide +kernel) hrun
    (System.along_of_forall fun a ha _ => hord a ha) (by decide +kernel) hret 3⟩

omit [DecidableEq κ] in
theorem sum_posted {q : ResultQueue κ} (h : ∀ t ∈ q.tickets, ∃ i k, t.1 = .worker i k) :
    ∑ i, (posted q i).length = q.tickets.length := by
  simp only [posted,List.length_map,← List.countP_eq_length_filter]
  generalize q.tickets = ts at h ⊢
  induction ts with
  | nil => simp
  | cons t ts ih =>
    obtain ⟨i,k,hi⟩ := h t List.mem_cons_self
    have hone : ∑ j, (if t.1.isWorker j then 1 else 0) = 1 := by
      simp [hi,ResultCaller.isWorker]
    simp only [List.countP_cons,Finset.sum_add_distrib,List.length_cons,hone]
    rw [ih fun t ht => h t (List.mem_cons_of_mem _ ht)]

/-- When `StopEngine` has returned, no worker has a result in hand: what it posted are its
answers, and what it passed to `Append` the sales among them, which its journal holds where
every write was complete. It does not return before all but 1024 of the results are polled. -/
theorem stop_settles (h : system.Reachable e) (hret : e.stop = .returned) :
    (∀ i, posted e.shared.resultQueue i = Shop.opened.answers (e.workers i).processed ∧
      (e.workers i).wal.map journalled =
        (successes (Shop.opened.answers (e.workers i).processed)).map (·.sale) ∧
      ((e.workers i).WroteWhole → (Engine.recover ((e.workers i).file [])).map recorded =
        (successes (Shop.opened.answers (e.workers i).processed)).map (·.sale))) ∧
    ∑ i, (Shop.opened.answers (e.workers i).processed).length ≤
      e.shared.resultQueue.takers.length + queueCap := by
  have hs := reachable_sales h
  have hexit : ∀ i : WorkerId, (e.workers i).pc = .exited := fun i =>
    (reachable_stopping h).left i (by rw [hret]; trivial)
  have hposted : ∀ i, posted e.shared.resultQueue i = Shop.opened.answers (e.workers i).processed :=
    fun i => (hs.serving i).settled (by simp [Worker.inHand,hexit])
  have hjournal : ∀ i, (e.workers i).wal.map journalled =
      (successes (Shop.opened.answers (e.workers i).processed)).map (·.sale) := by
    intro i
    have hj := (hs.serving i).journal
    rwa [Worker.unjournalled,hexit,List.append_nil] at hj
  refine ⟨fun i => ⟨hposted i,hjournal i,fun hw => by rw [hw.recover]; exact hjournal i⟩,?_⟩
  · have hworkers : ∀ t ∈ e.shared.resultQueue.tickets, ∃ i k, t.1 = .worker i k := by
      rintro ⟨c,res⟩ ht
      obtain ⟨t,ht⟩ := List.mem_iff_getElem?.mp ht
      exact hs.results.tickets_carry hs.carries ht
    simp only [← hposted,sum_posted hworkers]
    exact hs.results.room

theorem stop_settles_three : posted stopEnd.shared.resultQueue 3 =
    Shop.opened.answers (stopEnd.workers 3).processed ∧
    (Engine.recover ((stopEnd.workers 3).file [])).map recorded =
      (successes (Shop.opened.answers (stopEnd.workers 3).processed)).map (·.sale) :=
  have h := (stop_settles (stopStart_reachable.run stopEnd_run) (by decide +kernel)).1 3
  ⟨h.1,h.2.2 (by decide +kernel)⟩

end Callers
end Flashsale.CoreEngine
