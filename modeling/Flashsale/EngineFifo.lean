import Flashsale.EngineSteps
set_option autoImplicit false

/-!
Each shard is a FIFO from the tickets of its ingress queue to `Process`: what
the worker's queue accepted are the first requests taken from the ingress, and
the dispatcher holds at most the one after them.
-/

namespace Flashsale.Engine
variable {κ : Type}

def HandOk (s : Shard κ) : Dispatcher → Prop
  | .loop _ | .exited => s.queue.takers.length = s.worker.queue.accepted.length
  | .dequeue k =>
      (s.queue.pc (.dispatcher k)).dequeuing ∧
      match (s.queue.pc (.dispatcher k)).dequeued with
      | none => s.queue.takers.length = s.worker.queue.accepted.length
      | some pos =>
          pos = s.worker.queue.accepted.length ∧ s.queue.takers.length = pos + 1
  | .push _ wreq =>
      (s.worker.queue.producer = .ret true ∧
        s.queue.takers.length = s.worker.queue.accepted.length) ∨
      (s.queue.takers.length = s.worker.queue.accepted.length + 1 ∧
        (∃ c req, s.queue.tickets[s.worker.queue.accepted.length]? = some (c,req) ∧
          req.payload = wreq.payload) ∧
        (s.worker.queue.producer = .ret false ∨ s.worker.queue.producer.items = [wreq]))

/-- The requests accepted into the shard, in ticket order. -/
def Shard.accepted (s : Shard κ) : List Request := s.queue.tickets.map (·.2)

structure Fifo (s : Shard κ) : Prop where
  ingress : MpmcQueue.Inv (1024*4) s.queue
  consumers : MpmcQueue.Consumers (fun c => ∃ k, c = .dispatcher k) s.queue
  spsc : SpscQueue.Inv 16384 s.worker.queue
  moved : payloads s.worker.queue.accepted =
    (payloads s.accepted).take s.worker.queue.accepted.length
  hand : HandOk s s.dispatcher
  processing : s.worker.Processing

theorem startShard_queue : MpmcQueue.create (1024*4) = some (startShard : Shard κ).queue := rfl

theorem startShard_fifo : Fifo (startShard : Shard κ) where
  ingress := MpmcQueue.create_inv startShard_queue
  consumers := by
    intro c hc
    simp [startShard,MpmcQueue.create,Option.get] at hc
    cases hc
  spsc := SpscQueue.create_inv _
  moved := rfl
  hand := rfl
  processing := rfl

section Steps
variable {s s' : Shard κ}

theorem HandOk.frame {q : MpmcQueue.State Nat Request (Caller κ)} {w : Worker} {d : Dispatcher}
    (h : HandOk s d) (hw : w.queue.accepted = s.worker.queue.accepted)
    (hp : w.queue.producer = s.worker.queue.producer) (ht : s.queue.tickets <+: q.tickets)
    (hd : q.takers = s.queue.takers) (hpc : ∀ k, q.pc (.dispatcher k) = s.queue.pc (.dispatcher k)) :
    HandOk { s with queue := q, worker := w } d := by
  cases d with
  | loop k | exited => simpa [HandOk,hw,hd] using h
  | dequeue k => simpa [HandOk,hw,hd,hpc] using h
  | push k wreq =>
    rcases h with h | ⟨hlen,⟨c,req,hget,hreq⟩,hprod⟩
    · left
      simpa [hw,hp,hd] using h
    · right
      refine ⟨by simpa [hw,hd] using hlen,⟨c,req,?_,hreq⟩,by simpa [hp] using hprod⟩
      simp only [hw]
      obtain ⟨more,hmore⟩ := ht
      rw [← hmore,List.getElem?_append_left (List.getElem?_eq_some_iff.mp hget).1]
      exact hget

theorem moved_of_prefix {q : MpmcQueue.State Nat Request (Caller κ)} {acc : List Request}
    (h : payloads acc = (payloads s.accepted).take acc.length) (ht : s.queue.tickets <+: q.tickets) :
    payloads acc = (payloads (q.tickets.map (·.2))).take acc.length := by
  obtain ⟨more,hmore⟩ := ht
  have hlen : acc.length ≤ s.accepted.length := by
    have := congrArg List.length h
    simp only [payloads,List.length_map,List.length_take] at this
    omega
  rw [← hmore,List.map_append,payloads_append,
    List.take_append_of_le_length (by simpa [payloads,Shard.accepted] using hlen)]
  exact h

theorem Worker.Processing.setQueue {w : Worker} {q : SpscQueue.State Request} (h : w.Processing)
    (hd : q.delivered = w.queue.delivered) (hc : q.consumer = w.queue.consumer) :
    Worker.Processing { w with queue := q } := by
  simpa only [Worker.Processing,Worker.batchBuffer,SpscQueue.State.returned,hd,hc] using h

theorem items_of_produce {q q' : SpscQueue.State Request} {wreq : Request}
    (h : q.producer = .ret false ∨ q.producer.items = [wreq]) (hn : q.produce = some q') :
    q.producer.items = [wreq] := by
  rcases h with h | h
  · simp [SpscQueue.State.produce,h] at hn
  · exact h

theorem Fifo.push {k : Nat} {wreq : Request} {q : SpscQueue.State Request} (h : Fifo s)
    (hd : s.dispatcher = .push k wreq) (hn : s.worker.queue.next .produce = some q) :
    Fifo { s with worker := { s.worker with queue := q } } := by
  have hhand : HandOk s (.push k wreq) := hd ▸ h.hand
  obtain ⟨⟨hdel,hcons⟩,hcases⟩ := SpscQueue.State.produce_cases hn
  have hproc := h.processing.setQueue hdel hcons
  have hspsc := h.spsc.next hn
  rcases hhand with ⟨hp,-⟩ | ⟨hlen,⟨c,req,hget,hreq⟩,hprod⟩
  · simp [SpscQueue.State.next,SpscQueue.State.produce,hp] at hn
  have hitems := items_of_produce hprod hn
  rcases hcases with ⟨hacc,-,hp'⟩ | ⟨hacc,hp'⟩
  · refine { h with spsc := hspsc, moved := ?_, hand := ?_, processing := hproc }
    · change payloads q.accepted = (payloads s.accepted).take q.accepted.length
      rw [hacc]
      exact h.moved
    · rw [hd]
      right
      simp only [hacc]
      exact ⟨hlen,⟨c,req,hget,hreq⟩,hp'.imp id (fun he => he.trans hitems)⟩
  · rw [hitems] at hacc
    refine { h with spsc := hspsc, moved := ?_, hand := ?_, processing := hproc }
    · have hx : (payloads s.accepted)[s.worker.queue.accepted.length]? = some wreq.payload := by
        simp [payloads,Shard.accepted,hget,hreq]
      change payloads q.accepted = (payloads s.accepted).take q.accepted.length
      rw [hacc,payloads_append,List.length_append,List.length_singleton,List.take_add_one,hx,← h.moved]
      rfl
    · rw [hd]
      left
      simp only [hacc,List.length_append,List.length_cons,List.length_nil]
      exact ⟨hp',hlen⟩

variable [DecidableEq κ]

theorem Fifo.client {a : MpmcQueue.Act Request (Caller κ)}
    {q : MpmcQueue.State Nat Request (Caller κ)} (h : Fifo s) (hn : s.queue.next a = some q)
    (ha : (∃ p c k req, a = .enqueue (.client p c k) req) ∨
      ∃ p c k b, a = .step (.client p c k) b) : Fifo { s with queue := q } := by
  have hcons : MpmcQueue.Consumers (fun c => ∃ k, c = .dispatcher k) q :=
    h.consumers.next (by rintro c rfl; rcases ha with ⟨_,_,_,_,ha⟩ | ⟨_,_,_,_,ha⟩ <;> cases ha) hn
  have hframe : s.queue.tickets <+: q.tickets ∧ q.takers = s.queue.takers ∧
      ∀ k, q.pc (.dispatcher k) = s.queue.pc (.dispatcher k) := by
    rcases ha with ⟨p,c,k,req,rfl⟩ | ⟨p,c,k,b,rfl⟩
    · obtain ⟨-,rfl⟩ := MpmcQueue.State.call_eq hn
      exact ⟨List.prefix_refl _,rfl,fun k' => MpmcQueue.State.goto_pc_of_ne (by simp)⟩
    · refine ⟨MpmcQueue.State.next_tickets hn,?_,
        fun k' => MpmcQueue.State.step_pc_of_ne hn (by simp)⟩
      cases (MpmcQueue.State.step_effect hn).2.2 with
      | quiet ht hd hw => exact hd
      | won data hi ht hd => exact hd
      | took hdeq hb haf ht hd =>
        obtain ⟨k',hk'⟩ := h.consumers _ hdeq
        cases hk'
  obtain ⟨ht,hd,hpc⟩ := hframe
  exact {
    ingress := h.ingress.next trivial hn
    consumers := hcons
    spsc := h.spsc
    moved := moved_of_prefix h.moved ht
    hand := h.hand.frame rfl rfl ht hd hpc
    processing := h.processing }

theorem Fifo.dequeue {k : Nat} {spurious : Bool} {q : MpmcQueue.State Nat Request (Caller κ)}
    (h : Fifo s) (hd : s.dispatcher = .dequeue k)
    (hn : s.queue.next (.step (.dispatcher k) spurious) = some q) : Fifo { s with queue := q } := by
  obtain ⟨hdeq,hhand⟩ : HandOk s (.dequeue k) := hd ▸ h.hand
  obtain ⟨-,hdeq',heff⟩ := MpmcQueue.State.step_effect hn
  rw [hdeq] at hdeq'
  have hfifo : ∀ (_ : q.tickets = s.queue.tickets)
      (_ : HandOk { s with queue := q } s.dispatcher), Fifo { s with queue := q } :=
    fun ht hhand => {
      ingress := h.ingress.next trivial hn
      consumers := h.consumers.next (by rintro c ⟨⟩) hn
      spsc := h.spsc
      moved := moved_of_prefix h.moved (ht ▸ List.prefix_refl _)
      hand := hhand
      processing := h.processing }
  cases heff with
  | quiet ht htk hw =>
    refine hfifo ht ?_
    rw [hd]
    exact ⟨hdeq',by simpa only [hw,htk] using hhand⟩
  | won data hi ht htk =>
    rw [MpmcQueue.Pc.item_eq_none_of_dequeuing hdeq] at hi
    cases hi
  | took _ hbefore hafter ht htk =>
    have hpos : s.queue.dequeuePos = s.queue.takers.length := h.ingress.dequeuePos
    rw [hbefore] at hhand
    refine hfifo ht ?_
    rw [hd]
    refine ⟨hdeq',?_⟩
    simp only [hafter,htk,List.length_append,List.length_cons,List.length_nil]
    exact ⟨hpos.trans hhand,by omega⟩

theorem Fifo.step {e : State κ} {i : ShardId} {a : Act κ} (h : Fifo (e.shards i))
    (hs : ShardStep e i a s') : Fifo s' := by
  cases hs with
  | enqueue _ _ _ _ hn => exact h.client hn (.inl ⟨_,_,_,_,rfl⟩)
  | attempt _ _ _ _ hn => exact h.client hn (.inr ⟨_,_,_,_,rfl⟩)
  | @call k q _ _ _ hd hr hn =>
    have hhand : HandOk (e.shards i) (.loop k) := hd ▸ h.hand
    have hcons := h.consumers.next (by rintro c ⟨⟩; exact ⟨k,rfl⟩) hn
    have hinv := h.ingress.next trivial hn
    obtain ⟨-,rfl⟩ := MpmcQueue.State.call_eq hn
    refine { h with ingress := hinv, consumers := hcons, hand := ?_ }
    simp only [HandOk,MpmcQueue.State.goto_pc_self]
    exact ⟨rfl,hhand⟩
  | @leave k _ _ _ hd hr =>
    have hhand : HandOk (e.shards i) (.loop k) := hd ▸ h.hand
    exact { h with hand := hhand }
  | @empty k _ _ _ hd hp =>
    obtain ⟨-,hhand⟩ : HandOk (e.shards i) (.dequeue k) := hd ▸ h.hand
    rw [hp] at hhand
    exact { h with hand := hhand }
  | @pop k pos req wreq q _ _ _ hd hp hw hn =>
    obtain ⟨-,hhand⟩ : HandOk (e.shards i) (.dequeue k) := hd ▸ h.hand
    have hok := h.ingress.pcs (.dispatcher k)
    rw [hp] at hhand hok
    obtain ⟨rfl,hlen⟩ := hhand
    obtain ⟨-,c,hget⟩ := hok
    have hspsc := h.spsc.next hn
    obtain rfl := SpscQueue.State.callProducer_eq hn
    exact { h with
      spsc := hspsc
      hand := .inr ⟨hlen,⟨c,req,hget,hw.symm⟩,.inr rfl⟩
      processing := h.processing.setQueue rfl rfl }
  | dequeue _ _ _ hd hn => exact h.dequeue hd hn
  | @pushed k wreq _ _ _ hd hp =>
    have hhand : HandOk (e.shards i) (.push k wreq) := hd ▸ h.hand
    rcases hhand with ⟨-,hlen⟩ | ⟨-,-,hprod | hprod⟩
    · exact { h with hand := hlen }
    · simp [hp] at hprod
    · simp [hp,SpscQueue.Producer.items] at hprod
  | @retry k wreq q _ _ _ hd hp hn =>
    have hhand : HandOk (e.shards i) (.push k wreq) := hd ▸ h.hand
    have hspsc := h.spsc.next hn
    obtain rfl := SpscQueue.State.callProducer_eq hn
    rcases hhand with ⟨hprod,-⟩ | ⟨hlen,hget,-⟩
    · simp [hp] at hprod
    · refine { h with spsc := hspsc, hand := ?_, processing := h.processing.setQueue rfl rfl }
      rw [hd]
      exact .inr ⟨hlen,hget,.inr rfl⟩
  | push _ _ _ hd hn => exact h.push hd hn
  | @work inp sh w hn =>
    obtain ⟨hq,hacc,hprod,hproc⟩ := Worker.step_queue hn
    refine { h with
      spsc := ?_
      moved := by
        change payloads w.queue.accepted =
          (payloads (e.shards i).accepted).take w.queue.accepted.length
        rw [hacc]
        exact h.moved
      hand := h.hand.frame hacc hprod (List.prefix_refl _) rfl (fun _ => rfl)
      processing := hproc h.processing }
    rcases hq with hq | ⟨a,hq⟩
    · rw [hq]; exact h.spsc
    · exact h.spsc.next hq
  | stop _ => exact { h with }

theorem reachable_fifo {e : State κ} (h : system.Reachable e) (i : ShardId) :
    Fifo (e.shards i) := by
  refine h.invariant (I := fun e => ∀ i, Fifo (e.shards i)) ?_ ?_ i
  · rintro e ⟨_,_,_,_,rfl⟩ i
    exact startShard_fifo
  · intro e a e' ih hn i
    rcases State.next_shard hn i with hs | hs
    · rw [hs]; exact ih i
    · exact (ih i).step hs

end Steps
end Flashsale.Engine
