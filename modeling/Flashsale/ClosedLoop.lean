import Flashsale.ControlIds
import Flashsale.Oversell
import Flashsale.ServerGates
import Mathlib
set_option autoImplicit false

namespace Flashsale.Engine
open Transition Transducer
variable {κ : Type} {rs : List Payload} {r : Payload}

theorem Undropped.concat (h : Undropped rs) (hr : ¬ r.Control → r.requestId ≤ benchmarkLimit ∧
    r.requestId ∉ (after Ledger.process startLedger rs).seen) : Undropped (rs ++ [r]) := by
  intro l r' hl hctl
  rcases List.prefix_concat_iff.mp hl with he | hl
  · obtain ⟨rfl,hlast⟩ := List.append_inj' he rfl
    obtain rfl := List.singleton_inj.mp hlast
    exact hr hctl
  · exact h l r' hl hctl

/-- A worker takes up no request whose id it still knows. -/
def Unrepeated (e : State κ) (a : Act κ) : Prop :=
  ∀ i req, e.takesUp a = some (i,req) → ¬ Payload.Control req.payload →
    req.requestId ∉ (e.shards i).worker.seenRequests

instance (e : State κ) (a : Act κ) : Decidable (Unrepeated e a) :=
  match h : e.takesUp a with
  | none => isTrue fun i req hreq => by simp [h] at hreq
  | some (i,req) =>
      decidable_of_iff (¬ Payload.Control req.payload →
          req.requestId ∉ (e.shards i).worker.seenRequests) ⟨fun hnew j req' hreq => by
        rw [h] at hreq
        cases hreq
        exact hnew,fun hu => hu i req h⟩

theorem Admitted.ordinary {ok : Payload → Prop} {i : ShardId} {c : Caller κ}
    (h : Admitted ok i c r) (hctl : ¬ r.Control) : ok r := by
  cases c with
  | dispatcher k => exact h.elim
  | client purpose c k =>
    cases purpose with
    | once => exact h.2
    | warmUp => exact absurd (.inl h) hctl
    | barrier => exact absurd (.inr h) hctl

theorem Clients.ordinary_ok {e : State κ} {ok : Payload → Prop} {i : ShardId} {req : Request}
    (h : Clients ok e) (hf : Fifo (e.shards i)) (hm : req ∈ (e.shards i).worker.batchBuffer)
    (hctl : ¬ Payload.Control req.payload) : ok req.payload := by
  obtain ⟨c,hadm⟩ := hf.batch_admitted h hm
  exact hadm.ordinary hctl

section Steps
variable [DecidableEq κ] {e e' : State κ} {a : Act κ} {ok : Payload → Prop}

theorem Undropped.next (hr : system.Reachable e) (hc : Clients ok e)
    (hok : ∀ r, ok r → r.requestId ≤ benchmarkLimit) (hu : Unrepeated e a)
    (hn : e.next a = some e') {i : ShardId} (h : Undropped (payloads (e.shards i).worker.processed)) :
    Undropped (payloads (e'.shards i).worker.processed) := by
  have hf := reachable_fifo hr i
  have hflow := State.next_flow (reachable_fifo hr) hn i
  generalize e'.shards i = s' at hflow
  cases hflow with
  | quiet _ processed =>
    rw [processed]
    exact h
  | accept _ _ _ _ _ worker =>
    rw [worker]
    exact h
  | @process inp req items count sh' pc queue step =>
    have hp : payloads s'.worker.processed =
        payloads (e.shards i).worker.processed ++ [req.payload] := by
      rw [step.ledger.1,payloads_append]
      rfl
    rw [hp]
    refine h.concat fun hctl => ⟨hok _ ?_,?_⟩
    · exact hc.ordinary_ok hf (by simp [Worker.batchBuffer,pc,Loop.items]) hctl
    · have hseen := congrArg Ledger.seen (reachable_recorded hr i).ledger
      rw [← hseen]
      exact hu i req (State.takesUp_eq_some.mpr ⟨inp,items,count,rfl,pc⟩) hctl

end Steps
end Flashsale.Engine

namespace Flashsale.Server
open Cache Engine Backend Transition
variable {κ : Type}

/-- Nothing is on its way: no handler, no rollback, no poll, nothing in a queue or
in a hand, no worker with a batch. -/
structure Quiescent (s : State κ) : Prop where
  handlers : s.handlers = 0
  enqueuing : s.enqueuing = 0
  refused : s.refused = 0
  polling : s.polling = 0
  tasks : s.tasks = 0
  ingress : ∀ i, (s.engine.shards i).queue.dequeuePos = (s.engine.shards i).queue.enqueuePos
  hands : ∀ i, (s.engine.shards i).hand = []
  buffers : ∀ i, (s.engine.shards i).worker.queue.head = (s.engine.shards i).worker.queue.tail
  resting : ∀ i, (s.engine.shards i).worker.pc.resting = true
  batches : ∀ i, (s.engine.shards i).worker.batchBuffer = []
  results : s.engine.shared.resultQueue.dequeuePos = s.engine.shared.resultQueue.enqueuePos

def State.sold (s : State κ) : Multiset Member :=
  ((s.received.map Prod.snd).filter (·.status = 1)).map fun res => memberOf res.payload

/-- Each accepted request has one result, and what Redis holds deducted of a SKU
warmed up with `stock` are the requests sold. -/
structure Balanced (stock : Int64 → Option Int64) (s : State κ) : Prop where
  results : s.accepted.map Prod.snd = s.received.map fun x => memberOf x.2.payload
  counters : s.resultsReceived = s.acceptedRequests
  deductions : ∀ sku, (s.gates sku).live = ofSku sku s.sold
  redis : ∀ sku q, stock sku = some q → ∃ left, (s.gates sku).stock = some left ∧
    left + quantity (ofSku sku s.sold) = q.toInt

/-- A request with an id that is neither a control id nor one of the benchmark. -/
def Usual (m : Member) : Prop := 0 < m.reqId ∧ m.reqId ≤ benchmarkLimit

/-- A worker takes up no request whose id it still knows, and quantities are exact. -/
def Regular (s : State κ) (a : Act κ) : Prop :=
  Exact s a ∧ match a with
    | .engine a => Unrepeated s.engine a
    | _ => True

instance (s : State κ) : ∀ a, Decidable (Regular s a)
  | .engine a => inferInstanceAs (Decidable (Exact s (.engine a) ∧ Unrepeated s.engine a))
  | .receive http now => inferInstanceAs (Decidable (Exact s (.receive http now) ∧ True))
  | .undo m r => inferInstanceAs (Decidable (Exact s (.undo m r) ∧ True))
  | .cleanup t => inferInstanceAs (Decidable (Exact s (.cleanup t) ∧ True))
  | .enqueue _ _ | .enqueued _ _ | .poll _ | .polled _ | .warmUp _ | .drain _ =>
      isTrue ⟨trivial,trivial⟩

theorem Quiescent.done {s : State κ} (h : Quiescent s) (hf : ∀ i, Fifo (s.engine.shards i))
    (i : ShardId) : (s.engine.shards i).Done := by
  refine ⟨?_,h.resting i⟩
  obtain ⟨hsum,hle⟩ := (hf i).lengths
  have hingress := (hf i).ingress
  have hpos := h.ingress i
  have hticket := hingress.enqueuePos
  have htaker := hingress.dequeuePos
  rw [hpos,hticket] at htaker
  have hspsc := (hf i).spsc
  have hbuffer := h.buffers i
  have hroom := hspsc.room
  have hlen := hspsc.contents_length
  have hprefix := hspsc.prefix_.length_le
  rw [hspsc.head,hspsc.tail] at hbuffer
  have hcontents : (s.engine.shards i).worker.queue.contents.length = 0 := by
    omega
  rw [h.hands i,h.batches i,hcontents] at hsum
  simp only [List.length_nil,Nat.add_zero] at hsum
  omega

section Runs
variable [DecidableEq κ] {s s' s₀ : State κ} {a : Act κ} {as : List (Act κ)} {ok : Payload → Prop}
  {stock : Int64 → Option Int64}

omit [DecidableEq κ] in
theorem Books.handlers_le (h : Books s) : s.handlers ≤ s.deducted :=
  h.deducted ▸ Multiset.le_add_right _ _

theorem Step.deducted_cases (hs : Step s a s') : s'.deducted = s.deducted ∨
    ∃ http now, a = .receive http now ∧ (s.gates http.member.skuId).Admits http.member ∧
      s'.deducted = http.member ::ₘ s.deducted := by
  cases hs with
  | @deducted http now g admits script => exact .inr ⟨http,now,rfl,admits,rfl⟩
  | _ => exact .inl rfl

theorem Step.clients (hs : Step s a s') (h : Clients ok s.engine)
    (hm : ∀ m ∈ s.handlers, ok (creqOf m)) : Clients ok s'.engine := by
  cases hs with
  | @enqueue c m e handled start =>
    have hn : s.engine.next (.start c (.enqueueRequest (creq m))) = some e := start
    refine h.next ?_ hn
    intro req hreq
    rw [List.mem_singleton.mp hreq]
    exact hm m handled
  | @poll c e start =>
    have hn : s.engine.next (.start c .pollResult) = some e := start
    exact h.next (fun req hreq => by cases hreq) hn
  | @control a c f e act start =>
    have hn : s.engine.next (.start c f) = some e := start
    refine h.next (fun req hreq => ?_) hn
    rcases act with ⟨-,rfl⟩ | ⟨-,rfl⟩ <;> cases hreq
  | @engine a e act next =>
    refine h.next (fun req hreq => ?_) next
    cases a with
    | start c f => exact absurd rfl (act c f)
    | _ => cases hreq
  | _ => exact h

/-- What a run keeps in which every id is usual and every step regular. -/
structure Orderly (stock : Int64 → Option Int64) (s : State κ) : Prop where
  reachable : system.Reachable s
  ids : ∀ m ∈ s.deducted, Usual m
  accounted : Accounted stock s
  clients : Clients (fun r => ¬ Payload.Control r ∧ Payload.requestId r ≤ benchmarkLimit) s.engine
  undropped : ∀ i, Undropped (payloads (s.engine.shards i).worker.processed)

theorem Usual.ordinary {m : Member} (h : Usual m) :
    ¬ (creqOf m).Control ∧ (creqOf m).requestId ≤ benchmarkLimit := by
  refine ⟨?_,h.2⟩
  rintro (hzero | hbarrier)
  · exact absurd hzero (UInt64.pos_iff_ne_zero.mp h.1)
  · have hle : (creqOf m).requestId ≤ benchmarkLimit := h.2
    rw [hbarrier] at hle
    exact absurd hle (by decide)

theorem start_orderly {e : Engine.State κ} (hi : Engine.system.init e) :
    Orderly stock (start stock e) := by
  obtain ⟨_,_,_,_,rfl⟩ := hi
  refine ⟨.of_init ⟨stock,_,⟨_,_,_,_,rfl⟩,rfl⟩,fun m hm => absurd hm (Multiset.notMem_zero m),
    start_accounted _,initEngine_clients _ _ _ _,?_⟩
  intro i l r hl
  cases l with
  | nil => cases List.prefix_nil.mp hl
  | cons x l => cases List.prefix_nil.mp hl

theorem Orderly.next (h : Orderly stock s)
    (hids : ∀ http now, a = .receive http now → Usual http.member)
    (hreg : Regular s a) (hn : system.next s a = some s') : Orderly stock s' := by
  obtain ⟨hexact,hu⟩ := hreg
  have hs := State.next_cases hn
  have hids' : ∀ m ∈ s'.deducted, Usual m := by
    rcases hs.deducted_cases with he | ⟨http,now,ha,-,he⟩
    · rw [he]
      exact h.ids
    · rw [he]
      intro m hm
      rcases Multiset.mem_cons.mp hm with rfl | hm
      · exact hids http now ha
      · exact h.ids m hm
  refine ⟨h.reachable.step hn,hids',h.accounted.next h.reachable hexact hn,
    hs.clients h.clients fun m hm => ?_,fun i => ?_⟩
  · exact (h.ids m (Multiset.mem_of_le (reachable_books h.reachable).handlers_le hm)).ordinary
  · have hr := reachable_engine h.reachable
    have hi := h.undropped i
    rcases hs.engine_cases with he | ⟨b,hb,rfl | ⟨c,f,rfl⟩⟩
    · rw [he]
      exact hi
    · exact Undropped.next hr h.clients (fun r hr => hr.2) hu hb hi
    · exact Undropped.next hr h.clients (fun r hr => hr.2) (fun i req ht => by cases ht) hb hi

theorem run_orderly {e : Engine.State κ} (hi : Engine.system.init e)
    (hr : system.Run (start stock e) as s)
    (hids : ∀ http now, .receive http now ∈ as → Usual http.member)
    (hreg : system.Along Regular (start stock e) as) : Orderly stock s := by
  have hpremise : system.Along (fun _ a => ∀ http now, a = .receive http now → Usual http.member)
      (start stock e) as := System.along_of_forall fun a ha s http now he => hids http now (he ▸ ha)
  exact hr.invariant_along (fun s a s' h hp hn => h.next hp.1 hp.2 hn) (hpremise.and hreg)
    (start_orderly hi)

theorem Orderly.results (h : Orderly stock s) (hq : Quiescent s) :
    s.accepted.map Prod.snd = s.received.map fun x => memberOf x.2.payload := by
  have hengine := reachable_engine h.reachable
  have hpolled := reachable_polled h.reachable
  obtain ⟨B,hhandled⟩ := reachable_handled h.reachable
  have hresults := reachable_results hengine
  have hempty : s.engine.shared.resultQueue.takers.length =
      s.engine.shared.resultQueue.tickets.length :=
    hresults.inv.dequeuePos.symm.trans (hq.results ▸ hresults.inv.enqueuePos)
  have haccepted := congrArg (Multiset.map Prod.snd) (hhandled.onces_eq hengine hq.enqueuing)
  have hposted := hresults.payloads_eq (reachable_fifo hengine) h.clients (fun r hr => hr.1)
    (reachable_posted hengine) (hq.done (reachable_fifo hengine)) h.undropped
  rw [Multiset.map_map] at haccepted
  rw [← hpolled.received_eq hengine hq.polling hempty,Multiset.map_map,haccepted] at hposted
  have hfits : ∀ m ∈ s.accepted.map Prod.snd, m.Fits := fun m hm => by
    refine h.accounted.fits m ?_
    rw [(reachable_books h.reachable).split,Multiset.map_add]
    simp only [Multiset.mem_add]
    exact .inr (.inl (.inr hm))
  have hmembers := congrArg (Multiset.map memberOf) hposted
  rw [Multiset.map_map] at hmembers
  calc s.accepted.map Prod.snd = ((s.accepted.map Prod.snd).map creqOf).map memberOf :=
        (memberOf_map hfits).symm
    _ = _ := by rw [Multiset.map_map (f := Prod.snd)]; exact hmembers.symm

omit [DecidableEq κ] in
theorem State.sold_add_unsold (s : State κ) : s.sold + (unsold (s.received.map Prod.snd)).map memberOf =
    s.received.map fun x => memberOf x.2.payload := by
  have hall := congrArg (Multiset.map fun res : CSeckillResult => memberOf res.payload)
    (Multiset.filter_add_not (·.status = 1) (s.received.map Prod.snd))
  rw [Multiset.map_add,Multiset.map_map] at hall
  rw [State.sold,unsold,Multiset.map_map]
  exact hall

theorem Orderly.live (h : Orderly stock s) (hq : Quiescent s) (sku : Int64) :
    (s.gates sku).live = ofSku sku s.sold := by
  have hbooks := reachable_books h.reachable
  have hdeducted := hbooks.split
  rw [hq.handlers,hq.enqueuing,hq.refused,Multiset.zero_add,Multiset.zero_add,Multiset.map_zero,
    Multiset.zero_add,h.results hq,← s.sold_add_unsold,← rollbackTask_members,hbooks.received,
    hq.tasks,Multiset.zero_add,add_assoc,add_comm (s.cleaned.map _)] at hdeducted
  have hlive := h.accounted.live sku
  have hall : s.deducted = s.sold + s.returned := hdeducted
  rw [hall,ofSku_add] at hlive
  exact add_right_cancel hlive

/-- Input equals output: in every run whose ids are usual and whose steps are regular,
each quiescent state is balanced. -/
theorem closed_loop {e : Engine.State κ} (hi : Engine.system.init e)
    (hr : system.Run (start stock e) as s)
    (hids : ∀ http now, .receive http now ∈ as → Usual http.member)
    (hreg : system.Along Regular (start stock e) as) (hq : Quiescent s) : Balanced stock s := by
  have h := run_orderly hi hr hids hreg
  have hbooks := reachable_books h.reachable
  refine ⟨h.results hq,?_,h.live hq,fun sku q hs => ?_⟩
  · have hcard := congrArg Multiset.card (h.results hq)
    rw [Multiset.card_map,Multiset.card_map] at hcard
    rw [hbooks.resultsReceived,hbooks.acceptedRequests,hcard]
  · rw [← h.live hq]
    exact (h.accounted.warm sku q hs).stock

end Runs

/-- Request `http` with call `c` from the handler to the end of its batch, in which
worker 1 takes `steps` steps. -/
def orderRun (c : Nat) (http : HttpRequest) (steps : Nat) : List (Act Nat) :=
  [.receive http 0,.enqueue c http.member] ++ List.replicate 11 (.engine (.client c 1 false)) ++
    [.enqueued c http.member] ++ List.replicate 12 (.engine (.dispatch 1 3 4 false)) ++
    List.replicate steps (.engine (.work 1 default))

def saleRun : List (Act Nat) :=
  orderRun 0 (buyWith ['5']) 18 ++ [.poll 1] ++ List.replicate 6 (.engine (.client 1 1 false)) ++
    [.polled 1]

def soldState : State Nat := (system.exec shopStart saleRun).get (by decide +kernel)

theorem shopStart_init : system.init shopStart :=
  ⟨_,_,⟨0,0,0,0,rfl⟩,rfl⟩

theorem soldState_run : system.Run shopStart saleRun soldState :=
  System.run_of_exec (Option.some_get _).symm

def requestIds (as : List (Act Nat)) : List UInt64 :=
  as.filterMap fun
    | .receive http _ => some http.member.reqId
    | _ => none

theorem usual_of_requestIds {as : List (Act Nat)}
    (h : (requestIds as).all fun id => 0 < id ∧ id ≤ benchmarkLimit) :
    ∀ http now, .receive http now ∈ as → Usual http.member := by
  intro http now ha
  have hmem : http.member.reqId ∈ requestIds as := List.mem_filterMap.mpr ⟨_,ha,rfl⟩
  simpa [Usual] using List.all_eq_true.mp h _ hmem

def ampleStart : State Nat :=
  start (fun sku => if sku = 999 then some 4294967596 else none) (initEngine 0 0 0 0)

/-- Client `c` asks for `qty` pieces, the engine has fewer, and the cleanup gives `back`
what the result says. -/
def rejectRun (c : Nat) (http : HttpRequest) (back : CleanupTask) : List (Act Nat) :=
  orderRun c http 18 ++ [.poll (c+1)] ++ List.replicate 6 (.engine (.client (c+1) 1 false)) ++
    [.polled (c+1),.cleanup back]

def bulkBuy : HttpRequest := { buyWith ['5'] with qty := 200 }

def bulkTask : CleanupTask := { skuId := 999, guestId := 7, qty := 200, requestId := 5, status := 2 }

def closedRun : List (Act Nat) :=
  rejectRun 0 bulkBuy bulkTask ++ orderRun 2 { buyWith ['6'] with guestId := ['8'] } 18 ++
    [.poll 3] ++ List.replicate 6 (.engine (.client 3 1 false)) ++ [.polled 3]

def closedState : State Nat := (system.exec ampleStart closedRun).get (by decide +kernel)

theorem closedState_quiescent : Quiescent closedState where
  handlers := by decide +kernel
  enqueuing := by decide +kernel
  refused := by decide +kernel
  polling := by decide +kernel
  tasks := by decide +kernel
  ingress := by decide +kernel
  hands := by decide +kernel
  buffers := by decide +kernel
  resting := by decide +kernel
  batches := by decide +kernel
  results := by decide +kernel

theorem closed_loop_sale :
    Balanced (fun sku => if sku = 999 then some 4294967596 else none) closedState :=
  have hids : (requestIds closedRun).all fun id => 0 < id ∧ id ≤ benchmarkLimit := by
    decide +kernel
  have hreg : system.Along Regular ampleStart closedRun := by decide +kernel
  closed_loop ⟨0,0,0,0,rfl⟩ (System.run_of_exec (Option.some_get _).symm)
    (usual_of_requestIds hids) hreg closedState_quiescent

def repeatRun : List (Act Nat) :=
  saleRun ++ orderRun 2 { buyWith ['5'] with guestId := ['8'] } 10

def droppedState : State Nat := (system.exec shopStart repeatRun).get (by decide +kernel)

theorem droppedState_quiescent : Quiescent droppedState where
  handlers := by decide +kernel
  enqueuing := by decide +kernel
  refused := by decide +kernel
  polling := by decide +kernel
  tasks := by decide +kernel
  ingress := by decide +kernel
  hands := by decide +kernel
  buffers := by decide +kernel
  resting := by decide +kernel
  batches := by decide +kernel
  results := by decide +kernel

/-- The engine is asked for the lowest 32 bits of the quantity, which are 200. -/
def wideBuy : HttpRequest := { buyWith ['5'] with qty := 4294967496 }

def wideState : State Nat :=
  (system.exec ampleStart (rejectRun 0 wideBuy bulkTask)).get (by decide +kernel)

theorem wideState_quiescent : Quiescent wideState where
  handlers := by decide +kernel
  enqueuing := by decide +kernel
  refused := by decide +kernel
  polling := by decide +kernel
  tasks := by decide +kernel
  ingress := by decide +kernel
  hands := by decide +kernel
  buffers := by decide +kernel
  resting := by decide +kernel
  batches := by decide +kernel
  results := by decide +kernel

/-- A request with a known id is accepted and its item deducted, and there is no result
for it, no sale and no rollback; of a quantity beyond 32 bits the rollback gives back
what the engine was asked for, and the rest stays deducted. -/
theorem deductions_left_behind :
    (system.init shopStart ∧ system.Run shopStart repeatRun droppedState ∧
      (∀ http now, .receive http now ∈ repeatRun → Usual http.member) ∧ Quiescent droppedState ∧
      droppedState.acceptedRequests = 2 ∧ droppedState.resultsReceived = 1 ∧
      (droppedState.gates 999).stock = some 98 ∧ droppedState.returned = 0 ∧
      ¬ Balanced warmStock droppedState) ∧
    system.init ampleStart ∧ system.Run ampleStart (rejectRun 0 wideBuy bulkTask) wideState ∧
    (∀ http now, .receive http now ∈ rejectRun 0 wideBuy bulkTask → Usual http.member) ∧
    Quiescent wideState ∧ (wideState.gates 999).stock = some 300 ∧
    wideState.returned = {bulkTask.member} ∧ (wideState.gates 999).live = {wideBuy.member} ∧
    wideState.sold = 0 ∧
    ¬ Balanced (fun sku => if sku = 999 then some 4294967596 else none) wideState := by
  have hids : (requestIds repeatRun).all fun id => 0 < id ∧ id ≤ benchmarkLimit := by
    decide +kernel
  have haccepted : droppedState.acceptedRequests = 2 := by decide +kernel
  have hreceived : droppedState.resultsReceived = 1 := by decide +kernel
  have hwide : (requestIds (rejectRun 0 wideBuy bulkTask)).all
      fun id => 0 < id ∧ id ≤ benchmarkLimit := by decide +kernel
  have hlive : (wideState.gates 999).live = {wideBuy.member} := by decide +kernel
  have hsold : wideState.sold = 0 := by decide +kernel
  refine ⟨⟨shopStart_init,System.run_of_exec (Option.some_get _).symm,usual_of_requestIds hids,
    droppedState_quiescent,haccepted,hreceived,by decide +kernel,by decide +kernel,fun hb => ?_⟩,
    ⟨_,_,⟨0,0,0,0,rfl⟩,rfl⟩,System.run_of_exec (Option.some_get _).symm,usual_of_requestIds hwide,
    wideState_quiescent,by decide +kernel,by decide +kernel,hlive,hsold,fun hb => ?_⟩
  · have hcounters := hb.counters
    rw [haccepted,hreceived] at hcounters
    cases hcounters
  · have hdeductions := hb.deductions 999
    rw [hlive,hsold] at hdeductions
    exact absurd hdeductions (by decide)

end Flashsale.Server
