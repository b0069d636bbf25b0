import Flashsale.EngineClients
import Mathlib
set_option autoImplicit false

namespace Flashsale.Engine
open Transition
variable {κ : Type}

/-- Ticket `t` holds `req`: published in its cell, or not published yet by the
call that won the ticket. -/
def Holds (q : MpmcQueue.State Nat Request (Caller κ)) (t : Nat) (req : Request) : Prop :=
  let cell := q.buffer (q.slot t)
  (cell.sequence = t + 1 ∧ cell.data = req) ∨
    (cell.sequence = t ∧ ∃ c, (q.pc c).enqueued = some (t,req))

def Shard.hand (s : Shard κ) : List Request :=
  match s.dispatcher with
  | .dequeue k =>
      match s.queue.pc (.dispatcher k) with
      | .deqRead pos => [(s.queue.buffer (s.queue.slot pos)).data]
      | .deqStoreSeq _ req | .deqReturn (some (_,req)) => [req]
      | _ => []
  | .push _ wreq =>
      match s.worker.queue.producer with
      | .ret true => []
      | _ => [wreq]
  | .loop _ | .exited => []

section Shard
variable {s : Shard κ}

/-- The values in the ingress queue are those of the tickets not taken yet. -/
theorem Fifo.holds (h : Fifo s) {t : Nat} {req : Request} (ht : s.queue.takers.length ≤ t)
    (hr : s.accepted[t]? = some req) : Holds s.queue t req := by
  simp only [Shard.accepted,List.getElem?_map,Option.map_eq_some_iff] at hr
  obtain ⟨⟨c,r⟩,hget,rfl⟩ := hr
  have hlt := (List.getElem?_eq_some_iff.mp hget).1
  have hseq := h.ingress.sequence t
  have hdata := h.ingress.data t
  rcases h.ingress.stored t ht hlt with hs | ⟨hs,p,hp⟩
  · right
    obtain ⟨pos,hw,rfl⟩ := h.ingress.winner t c r hget
    exact ⟨hseq.trans hs,c,hw⟩
  · left
    rw [hget,Option.some.injEq,Prod.mk.injEq] at hp
    exact ⟨hseq.trans hs,hdata.trans hp.2.symm⟩

theorem take_succ_of_getElem? {l : List Payload} {n : Nat} {x : Payload} (h : l[n]? = some x) :
    l.take (n+1) = l.take n ++ [x] := by
  rw [List.take_add_one,h]
  rfl

theorem Shard.payload_of_ticket {t : Nat} {c : Caller κ} {req : Request}
    (h : s.queue.tickets[t]? = some (c,req)) : (payloads s.accepted)[t]? = some req.payload := by
  simp [payloads,Shard.accepted,h]

theorem Fifo.accepted_of_empty_hand (h : Fifo s) (hh : s.hand = [])
    (hlen : s.queue.takers.length = s.worker.queue.accepted.length) :
    payloads s.worker.queue.accepted ++ payloads s.hand =
      (payloads s.accepted).take s.queue.takers.length := by
  rw [h.moved,hh,hlen]
  simp

theorem Fifo.accepted_of_hand (h : Fifo s) {c : Caller κ} {req wreq : Request}
    (hh : s.hand = [wreq]) (hlen : s.queue.takers.length = s.worker.queue.accepted.length + 1)
    (hget : s.queue.tickets[s.worker.queue.accepted.length]? = some (c,req))
    (hreq : req.payload = wreq.payload) :
    payloads s.worker.queue.accepted ++ payloads s.hand =
      (payloads s.accepted).take s.queue.takers.length := by
  rw [h.moved,hh,hlen,take_succ_of_getElem? (Shard.payload_of_ticket hget),hreq]
  rfl

theorem Fifo.accepted_hand (h : Fifo s) :
    payloads s.worker.queue.accepted ++ payloads s.hand =
      (payloads s.accepted).take s.queue.takers.length := by
  have hhand := h.hand
  cases hd : s.dispatcher with
  | loop k | exited =>
    rw [hd] at hhand
    exact h.accepted_of_empty_hand (by simp [Shard.hand,hd]) hhand
  | dequeue k =>
    rw [hd] at hhand
    obtain ⟨hdeq,hpos⟩ := hhand
    have hok := h.ingress.pcs (.dispatcher k)
    cases hpc : s.queue.pc (.dispatcher k) with
    | deqRead pos =>
      rw [hpc] at hpos hok
      obtain ⟨rfl,hlen⟩ := hpos
      obtain ⟨-,c,hget⟩ := hok
      refine h.accepted_of_hand ?_ hlen hget rfl
      simp only [Shard.hand,hd,hpc,h.ingress.data]
    | deqStoreSeq pos req =>
      rw [hpc] at hpos hok
      obtain ⟨rfl,hlen⟩ := hpos
      obtain ⟨-,c,hget⟩ := hok
      exact h.accepted_of_hand (by simp [Shard.hand,hd,hpc]) hlen hget rfl
    | deqReturn won =>
      cases won with
      | none =>
        rw [hpc] at hpos
        exact h.accepted_of_empty_hand (by simp [Shard.hand,hd,hpc]) hpos
      | some x =>
        rw [hpc] at hpos hok
        obtain ⟨pos,req⟩ := x
        obtain ⟨rfl,hlen⟩ := hpos
        obtain ⟨-,c,hget⟩ := hok
        exact h.accepted_of_hand (by simp [Shard.hand,hd,hpc]) hlen hget rfl
    | deqLoadPos | deqLoadSeq pos | deqCas pos =>
      rw [hpc] at hpos
      exact h.accepted_of_empty_hand (by simp [Shard.hand,hd,hpc]) hpos
    | _ => simp [hpc,MpmcQueue.Pc.dequeuing] at hdeq
  | push k wreq =>
    rw [hd] at hhand
    rcases hhand with ⟨hp,hlen⟩ | ⟨hlen,⟨c,req,hget,hreq⟩,hp⟩
    · exact h.accepted_of_empty_hand (by simp [Shard.hand,hd,hp]) hlen
    · refine h.accepted_of_hand ?_ hlen hget hreq
      rcases hp with hp | hp
      · simp [Shard.hand,hd,hp]
      · simp only [Shard.hand,hd]
        split
        · rename_i hr
          simp [hr,SpscQueue.Producer.items] at hp
        · rfl

theorem Fifo.pipeline (h : Fifo s) :
    payloads (s.worker.processed ++ s.worker.batchBuffer ++ s.worker.queue.contents ++ s.hand ++
      s.accepted.drop s.queue.takers.length) = payloads s.accepted := by
  have hproc : payloads s.worker.processed ++ payloads s.worker.batchBuffer =
      payloads s.worker.queue.delivered := h.processing
  have hacc : payloads s.worker.queue.delivered ++ payloads s.worker.queue.contents =
      payloads s.worker.queue.accepted := by
    rw [← payloads_append,← h.spsc.accepted_eq]
  calc payloads (s.worker.processed ++ s.worker.batchBuffer ++ s.worker.queue.contents ++ s.hand ++
        s.accepted.drop s.queue.takers.length)
      = payloads s.worker.queue.accepted ++ payloads s.hand ++
          (payloads s.accepted).drop s.queue.takers.length := by
        rw [payloads_append,payloads_append,payloads_append,payloads_append,hproc,hacc]
        simp [payloads,List.map_drop]
    _ = payloads s.accepted := by rw [h.accepted_hand,List.take_append_drop]

theorem Fifo.processed_prefix (h : Fifo s) : payloads s.worker.processed <+: payloads s.accepted := by
  rw [← h.pipeline]
  simp only [payloads_append,List.append_assoc]
  exact List.prefix_append _ _

theorem Fifo.positions (h : Fifo s) : s.queue.dequeuePos = s.queue.enqueuePos ↔
    s.queue.takers.length = s.queue.tickets.length := by
  have hE : s.queue.enqueuePos = s.queue.tickets.length := h.ingress.enqueuePos
  have hD : s.queue.dequeuePos = s.queue.takers.length := h.ingress.dequeuePos
  rw [hE,hD]

/-- The position of a processed request is its ticket. -/
theorem Fifo.processed_ticket (h : Fifo s) {t : Nat} {c : Caller κ} {req : Request}
    (hget : s.queue.tickets[t]? = some (c,req)) (ht : t < s.worker.processed.length) :
    (payloads s.worker.processed)[t]? = some req.payload := by
  obtain ⟨more,hmore⟩ := h.processed_prefix
  have hx := Shard.payload_of_ticket hget
  rw [← hmore,List.getElem?_append_left (by simpa [payloads] using ht)] at hx
  exact hx

end Shard

section Runs
variable [DecidableEq κ] {e e' : State κ}

theorem ShardStep.tickets {i : ShardId} {a : Act κ} {s' : Shard κ} (hs : ShardStep e i a s') :
    (e.shards i).queue.tickets <+: s'.queue.tickets := by
  cases hs with
  | enqueue _ _ _ _ hn | attempt _ _ _ _ hn | call _ _ _ _ _ hn | dequeue _ _ _ _ hn =>
    exact MpmcQueue.State.next_tickets hn
  | _ => exact List.prefix_refl _

theorem run_tickets {as : List (Act κ)} (h : system.Run e as e') (i : ShardId) :
    (e.shards i).queue.tickets <+: (e'.shards i).queue.tickets := by
  refine h.relates (R := fun e e' => (e.shards i).queue.tickets <+: (e'.shards i).queue.tickets)
    (fun _ => List.prefix_refl _) (fun _ _ _ => List.IsPrefix.trans) (fun e a e' hn => ?_)
  rcases State.next_shard hn i with hs | hs
  · simp [hs]
  · exact hs.tickets

theorem getElem?_of_isPrefix {α : Type} {l m : List α} (h : l <+: m) {n : Nat} {x : α}
    (hx : l[n]? = some x) : m[n]? = some x := by
  obtain ⟨more,rfl⟩ := h
  rw [List.getElem?_append_left (List.getElem?_eq_some_iff.mp hx).1]
  exact hx

/-- A call that has not begun wins a later ticket than those already won. -/
theorem ticket_lt {i : ShardId} {c : κ} {k ta tb : Nat} {x : Caller κ × Request} {b : Request}
    {as : List (Act κ)} (hreach : system.Reachable e) (hr : system.Run e as e')
    (hidle : e.calls c = .idle) (ha : (e.shards i).queue.tickets[ta]? = some x)
    (hb : (e'.shards i).queue.tickets[tb]? = some (.client .once c k,b)) : ta < tb := by
  have hlt := (List.getElem?_eq_some_iff.mp ha).1
  by_contra hle
  -- otherwise the ticket is one of those already won, and its winner had begun
  have hget : (e.shards i).queue.tickets[tb]? = some (.client .once c k,b) := by
    rw [← hb]
    obtain ⟨more,hmore⟩ := run_tickets hr i
    rw [← hmore,List.getElem?_append_left (by omega)]
  obtain ⟨pos,hw,-⟩ := (reachable_fifo hreach i).ingress.winner tb _ b hget
  rw [(reachable_clients hreach).fresh c hidle i .once k] at hw
  cases hw

theorem shard_of_ticket {i : ShardId} {c : κ} {k t : Nat} {req : Request}
    (h : system.Reachable e) (ht : (e.shards i).queue.tickets[t]? = some (.client .once c k,req)) :
    shardIdx req.skuId = i := by
  have := (reachable_fifo h i).ingress.tickets_carry ((reachable_clients h).queues i) ht
  exact this.1

/-- End to end, each shard is a FIFO that loses, repeats and changes nothing;
what one call accepted before another began is processed first. -/
theorem fifo_exactly_once (h : system.Reachable e) (i : ShardId) :
    (∃ ingress : List Request,
      (e.shards i).queue.dequeuePos + ingress.length = (e.shards i).queue.enqueuePos ∧
      (∀ k req, ingress[k]? = some req →
        Holds (e.shards i).queue ((e.shards i).queue.dequeuePos + k) req) ∧
      payloads ((e.shards i).worker.processed ++ (e.shards i).worker.batchBuffer ++
        (e.shards i).worker.queue.contents ++ (e.shards i).hand ++ ingress) =
          payloads (e.shards i).accepted) ∧
    (∀ c t req, ((e.shards i).queue.pc c).enqueued = some (t,req) →
      (e.shards i).queue.tickets[t]? = some (c,req)) ∧
    (∀ c req, (e.shards i).queue.pc c = .enqReturn req none →
      ∀ x ∈ (e.shards i).queue.tickets, x.1 ≠ c) ∧
    ∀ as e', system.Run e as e' → ∀ ca ka a ta,
      (e.shards i).queue.pc (.client .once ca ka) = .enqReturn a (some ta) →
      ∀ cb, e.calls cb = .idle → ∀ j kb b tb,
        ((e'.shards j).queue.pc (.client .once cb kb)).enqueued = some (tb,b) →
        a.skuId = b.skuId →
        j = i ∧ ta < tb ∧ ∀ r, (payloads (e'.shards i).worker.processed)[tb]? = some r →
          r = b.payload ∧ (payloads (e'.shards i).worker.processed)[ta]? = some a.payload := by
  have hf := reachable_fifo h i
  have hE : (e.shards i).queue.enqueuePos = (e.shards i).queue.tickets.length := hf.ingress.enqueuePos
  have hD : (e.shards i).queue.dequeuePos = (e.shards i).queue.takers.length := hf.ingress.dequeuePos
  have hle := hf.ingress.order
  refine ⟨⟨_,?_,?_,hf.pipeline⟩,fun c t req hc => hf.ingress.recorded_enqueue hc,
    fun c req hc => hf.ingress.refused hc,?_⟩
  · rw [hE,hD]
    simp only [Shard.accepted,List.length_drop,List.length_map]
    omega
  · intro k req hk
    rw [List.getElem?_drop] at hk
    rw [hD]
    exact hf.holds (by omega) hk
  · intro as e' hr ca ka a ta ha cb hidle j kb b tb hb hsku
    have h' := h.run hr
    have hta : (e.shards i).queue.tickets[ta]? = some (.client .once ca ka,a) :=
      hf.ingress.recorded_enqueue (by rw [ha]; rfl)
    have htb : (e'.shards j).queue.tickets[tb]? = some (.client .once cb kb,b) :=
      (reachable_fifo h' j).ingress.recorded_enqueue hb
    obtain rfl : j = i := by rw [← shard_of_ticket h' htb,← hsku,shard_of_ticket h hta]
    have hlt := ticket_lt h hr hidle hta htb
    refine ⟨rfl,hlt,fun r hproc => ?_⟩
    have hlen : tb < (e'.shards j).worker.processed.length := by
      simpa [payloads] using (List.getElem?_eq_some_iff.mp hproc).1
    have hf' := reachable_fifo h' j
    rw [hf'.processed_ticket htb hlen] at hproc
    exact ⟨(Option.some.inj hproc).symm,
      hf'.processed_ticket (getElem?_of_isPrefix (run_tickets hr j) hta) (by omega)⟩

end Runs

def saleRequest (requestId : UInt64) : Request :=
  { zeroRequest with skuId := 123, qty := 1, guestId := requestId, requestId := requestId }

def acceptRun : List (Act Nat) :=
  .start 0 (.enqueueRequest (saleRequest 5)) :: List.replicate 11 (.client 0 1 false)

def secondRun : List (Act Nat) :=
  .start 1 (.enqueueRequest (saleRequest 6)) :: List.replicate 11 (.client 1 2 false) ++
    List.replicate 24 (.dispatch 1 3 4 false) ++ List.replicate 32 (.work 1 default)

def acceptState : State Nat :=
  (system.exec (initEngine 0 0 0 0) acceptRun).get (by decide +kernel)

def secondState : State Nat := (system.exec acceptState secondRun).get (by decide +kernel)

theorem acceptState_reachable : system.Reachable acceptState :=
  .exec (s := initEngine 0 0 0 0) (show system.init (initEngine 0 0 0 0) from ⟨0,0,0,0,rfl⟩) _

theorem fifo_exactly_once_two :
    acceptState.calls 1 = .idle ∧
    (secondState.shards 1).worker.processed.map (·.requestId) = [5,6] ∧
    (payloads (secondState.shards 1).worker.processed)[0]? = some (saleRequest 5).payload :=
  have h := (fifo_exactly_once acceptState_reachable 1).2.2.2 secondRun secondState
    (Transition.System.run_of_exec (Option.some_get _).symm) 0 0 { saleRequest 5 with tsIngress := 1 } 0
    (by decide +kernel) 1 rfl 1 0 { saleRequest 6 with tsIngress := 2 } 1 (by decide +kernel) rfl
  ⟨rfl,by decide +kernel,(h.2.2 (saleRequest 6).payload (by decide +kernel)).2⟩

end Flashsale.Engine
