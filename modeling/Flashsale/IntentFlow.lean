import Flashsale.PullConsumer
import Mathlib
set_option autoImplicit false

/-!
From the messages to `process_order`: every message pulled is settled once, and
what is acknowledged is, route by route and in order, what the queues hold and
what their workers have processed.
-/

namespace Flashsale.CoreConsumer
open Transition
variable {σ : Type} {client : PullClient σ}

def Loop.Looping : Loop → Prop
  | .tryDequeue drain | .dequeuing drain | .process drain _ => drain = false
  | .testRunning => True
  | .exited => False

def Main.Looping : Main → Prop
  | .testRunning | .fetch | .settle _ | .enqueuing _ _ _ => True
  | .clearRunning | .join _ | .returned => False

def Worker.Called (w : Worker) : Loop → Prop
  | .dequeuing _ => w.queue.consumer ≠ .idle
  | _ => w.queue.consumer.atRest

structure Worker.Ok (w : Worker) : Prop where
  queue : SpscQueue.Inv kQueueCap w.queue
  single : w.queue.consumer.Single
  delivered : w.queue.delivered = w.processed ++ w.inHand
  looping : w.pc.Looping
  called : w.Called w.pc

theorem startWorker_ok : startWorker.Ok where
  queue := SpscQueue.create_inv _
  single := trivial
  delivered := rfl
  looping := rfl
  called := rfl

section Workers
variable {w w' : Worker}

theorem Worker.Ok.setQueue {q : SpscQueue.State OrderIntent} {a : SpscQueue.Act OrderIntent}
    (h : w.Ok) (hn : w.queue.next a = some q) (hd : q.delivered = w.queue.delivered)
    (hc : q.consumer = w.queue.consumer) : Worker.Ok { w with queue := q } where
  queue := h.queue.next hn
  single := by simpa only [hc] using h.single
  delivered := by
    simpa only [Worker.inHand,SpscQueue.State.returned,hd,hc] using h.delivered
  looping := h.looping
  called := by
    have hcalled := h.called
    unfold Worker.Called at hcalled ⊢
    simpa only [hc] using hcalled

theorem Worker.Ok.consume {q : SpscQueue.State OrderIntent} {drain : Bool} (h : w.Ok)
    (hpc : w.pc = .dequeuing drain) (hn : w.queue.consume = some q) :
    Worker.Ok { w with queue := q } ∧ q.accepted = w.queue.accepted ∧
      q.producer = w.queue.producer := by
  obtain ⟨hacc,hprod,hdel⟩ := SpscQueue.State.consume_cases hn
  have hbusy : w.queue.returned = [] := by
    unfold SpscQueue.State.returned
    split
    · rename_i hc
      simp [SpscQueue.State.consume,hc] at hn
    · rfl
  have hold : w.queue.delivered = w.processed := by
    simpa [Worker.inHand,hpc,hbusy] using h.delivered
  refine ⟨⟨h.queue.next (a := .consume) hn,h.single.consume hn,?_,h.looping,?_⟩,hacc,hprod⟩
  · simp [Worker.inHand,hpc,hdel,hold]
  · simpa [Worker.Called,hpc] using SpscQueue.State.consume_ne_idle hn

theorem Worker.Ok.step (h : w.Ok) (hs : w.step true = some w') :
    w'.Ok ∧ w'.queue.accepted = w.queue.accepted ∧ w'.queue.producer = w.queue.producer := by
  have hlooping := h.looping
  have hdel := h.delivered
  have hcalled := h.called
  unfold Worker.step at hs
  cases hpc : w.pc with
  | tryDequeue drain =>
    simp only [hpc,Option.map_eq_some_iff] at hs
    obtain ⟨q,hn,rfl⟩ := hs
    have hq := h.queue.next hn
    obtain rfl := SpscQueue.State.callConsumer_eq hn
    refine ⟨⟨hq,trivial,?_,by simpa only [Loop.Looping,hpc] using hlooping,nofun⟩,rfl,rfl⟩
    simpa [Worker.inHand,hpc,SpscQueue.State.returned] using hdel
  | dequeuing drain =>
    simp only [hpc] at hs
    split at hs
    · rename_i intent rest hc
      cases hs
      have hone : rest = [] := by
        have hsingle := h.single
        simpa [hc,SpscQueue.Consumer.Single] using hsingle
      subst hone
      refine ⟨⟨h.queue,h.single,?_,by simpa only [Loop.Looping,hpc] using hlooping,?_⟩,rfl,rfl⟩
      · simpa [Worker.inHand,hpc,SpscQueue.State.returned,hc] using hdel
      · simp [Worker.Called,hc,SpscQueue.Consumer.atRest]
    · rename_i hc
      cases hs
      obtain rfl : drain = false := by simpa only [Loop.Looping,hpc] using hlooping
      refine ⟨⟨h.queue,h.single,?_,trivial,?_⟩,rfl,rfl⟩
      · simpa [Worker.inHand,hpc,SpscQueue.State.returned,hc] using hdel
      · simp [Worker.Called,hc,SpscQueue.Consumer.atRest]
    · obtain ⟨q,hn,rfl⟩ := Option.map_eq_some_iff.mp hs
      simpa only [hpc] using h.consume hpc hn
  | process drain intent =>
    simp only [hpc,Option.some.injEq] at hs
    subst hs
    refine ⟨⟨h.queue,h.single,?_,by simpa only [Loop.Looping,hpc] using hlooping,?_⟩,rfl,rfl⟩
    · simpa [Worker.inHand,hpc] using hdel
    · simpa only [Worker.Called,hpc] using hcalled
  | testRunning =>
    simp only [hpc,Option.some.injEq] at hs
    subst hs
    refine ⟨⟨h.queue,h.single,?_,rfl,?_⟩,rfl,rfl⟩
    · simpa [Worker.inHand,hpc] using hdel
    · simpa only [Worker.Called,hpc] using hcalled
  | exited => simp [hpc] at hs

end Workers

def State.Calling (s : State σ) : Main → Prop
  | .enqueuing msg intent _ =>
      intentOf msg = some intent ∧
        ((s.workers (routeIndex intent)).queue.producer = .ret true ∨
          (s.workers (routeIndex intent)).queue.producer = .ret false ∨
          (s.workers (routeIndex intent)).queue.producer.items = [intent])
  | _ => True

/-- The intents taken for worker `i`, in the order they were pulled. -/
def State.taken (s : State σ) (i : WorkerId) : List OrderIntent :=
  (s.acked ++ s.inFlight).filter (routeIndex · = i)

structure Flow (s : State σ) : Prop where
  workers : ∀ i, (s.workers i).Ok
  running : s.running = true
  main : s.main.Looping
  settled : s.fetched = s.verdicts.map (·.1) ++ s.main.pending
  routed : ∀ i, (s.workers i).queue.accepted = s.taken i
  calling : s.Calling s.main
  acknowledged : ∀ msg, (msg,.ack) ∈ s.verdicts → (intentOf msg).isSome

theorem start_flow (client : PullClient σ) : Flow (start client) where
  workers _ := startWorker_ok
  running := rfl
  main := trivial
  settled := rfl
  routed _ := rfl
  calling := trivial
  acknowledged := nofun

section Steps
variable {s s' : State σ}

theorem acked_settle (s : State σ) (msg : List Char) (v : Verdict) (batch : List (List Char)) :
    (s.settle msg v batch).acked =
      s.acked ++ if v = .ack then (intentOf msg).toList else [] := by
  cases v <;> cases h : intentOf msg <;> simp [State.acked,State.settle,h]

theorem Flow.call {msg : List Char} {intent : OrderIntent} {batch : List (List Char)}
    {q : SpscQueue.State OrderIntent} (h : Flow s) (hm : s.main = .settle (msg :: batch))
    (hi : intentOf msg = some intent)
    (hn : (s.workers (routeIndex intent)).queue.next (.tryEnqueue intent) = some q) :
    Flow { s.setQueue (routeIndex intent) q with main := .enqueuing msg intent batch } := by
  have hinv := (h.workers (routeIndex intent)).setQueue hn
  obtain rfl := SpscQueue.State.callProducer_eq hn
  have hflight : s.inFlight = [] := by simp [State.inFlight,hm]
  refine ⟨fun j => ?_,h.running,trivial,?_,fun j => ?_,⟨hi,.inr (.inr ?_)⟩,h.acknowledged⟩
  · by_cases hj : j = routeIndex intent
    · subst hj
      simpa [State.setQueue] using hinv rfl rfl
    · simpa [State.setQueue,hj] using h.workers j
  · simpa [State.setQueue,hm,Main.pending] using h.settled
  · have hacc := h.routed j
    simp only [State.taken,hflight] at hacc
    simp only [State.taken,State.inFlight,State.setQueue,Function.update_self]
    by_cases hj : j = routeIndex intent
    · subst hj
      simpa [State.acked] using hacc
    · simpa [State.acked,hj] using hacc
  · simp [State.setQueue,SpscQueue.Producer.items]

theorem Flow.produce {msg : List Char} {intent : OrderIntent} {batch : List (List Char)}
    {q : SpscQueue.State OrderIntent} (h : Flow s) (hm : s.main = .enqueuing msg intent batch)
    (hn : (s.workers (routeIndex intent)).queue.produce = some q) :
    Flow (s.setQueue (routeIndex intent) q) := by
  obtain ⟨⟨hdel,hcons⟩,hcases⟩ := SpscQueue.State.produce_cases hn
  have hinv := (h.workers (routeIndex intent)).setQueue (a := .produce) hn hdel hcons
  obtain ⟨hi,hcall⟩ : s.Calling (.enqueuing msg intent batch) := hm ▸ h.calling
  have hbusy : ∀ ok, (s.workers (routeIndex intent)).queue.producer ≠ .ret ok := fun ok hp => by
    simp [SpscQueue.State.produce,hp] at hn
  have hitems := hcall.resolve_left (hbusy true) |>.resolve_left (hbusy false)
  have hflight : s.inFlight = [] := by simp [State.inFlight,hm,hbusy true]
  have hacked : (s.setQueue (routeIndex intent) q).acked = s.acked := rfl
  have hrouted : ∀ j, (s.workers j).queue.accepted = s.acked.filter (routeIndex · = j) := by
    intro j
    simpa [State.taken,hflight] using h.routed j
  have hworker : ∀ j, ((s.setQueue (routeIndex intent) q).workers j).Ok := by
    intro j
    by_cases hj : j = routeIndex intent
    · subst hj
      simpa [State.setQueue] using hinv
    · simpa [State.setQueue,hj] using h.workers j
  refine ⟨hworker,h.running,h.main,h.settled,fun j => ?_,?_,h.acknowledged⟩
  · rcases hcases with ⟨hacc,hne,-⟩ | ⟨hacc,hret⟩
    · have hflight' : (s.setQueue (routeIndex intent) q).inFlight = [] := by
        simp [State.inFlight,State.setQueue,hm,hne]
      rw [State.taken,hacked,hflight',List.append_nil,← hrouted j]
      by_cases hj : j = routeIndex intent
      · subst hj
        simpa [State.setQueue] using hacc
      · simp [State.setQueue,hj]
    · have hflight' : (s.setQueue (routeIndex intent) q).inFlight = [intent] := by
        simp [State.inFlight,State.setQueue,hm,hret]
      rw [State.taken,hacked,hflight',List.filter_append,← hrouted j]
      by_cases hj : j = routeIndex intent
      · subst hj
        simpa [State.setQueue,hitems] using hacc
      · simp [State.setQueue,hj,Ne.symm hj]
  · change State.Calling _ s.main
    rw [hm]
    refine ⟨hi,?_⟩
    simp only [State.setQueue,Function.update_self]
    rcases hcases with ⟨-,-,hp | hp⟩ | ⟨-,hp⟩
    · exact .inr (.inl hp)
    · exact .inr (.inr (hp.trans hitems))
    · exact .inl hp

/-- A message gets its verdict: acknowledged where its queue has accepted its intent. -/
theorem Flow.settle {msg : List Char} {v : Verdict} {batch : List (List Char)} (h : Flow s)
    (hp : s.main.pending = msg :: batch)
    (ht : s.acked ++ s.inFlight = s.acked ++ if v = .ack then (intentOf msg).toList else [])
    (hv : v = .ack → (intentOf msg).isSome) : Flow (s.settle msg v batch) := by
  refine ⟨h.workers,h.running,trivial,?_,fun j => ?_,trivial,fun m hm => ?_⟩
  · have hs := h.settled
    rw [hp] at hs
    simp [State.settle,Main.pending,hs]
  · have hr := h.routed j
    rw [State.taken,ht,← acked_settle s msg v batch] at hr
    simpa [State.taken,State.inFlight,State.settle] using hr
  · simp only [State.settle,List.mem_append,List.mem_singleton,Prod.mk.injEq] at hm
    rcases hm with hm | ⟨rfl,rfl⟩
    · exact h.acknowledged m hm
    · exact hv rfl

theorem Flow.pull (h : Flow s) (hn : s.pull client = some s') : Flow s' := by
  unfold State.pull at hn
  cases hm : s.main with
  | testRunning =>
    simp only [hm,h.running,if_true,Option.some.injEq] at hn
    subst hn
    refine ⟨h.workers,rfl,trivial,?_,fun j => ?_,trivial,h.acknowledged⟩
    · simpa [Main.pending,hm] using h.settled
    · simpa [State.taken,State.acked,State.inFlight,hm] using h.routed j
  | fetch =>
    simp only [hm] at hn
    have hsettled : s.fetched = s.verdicts.map (·.1) := by
      simpa [Main.pending,hm] using h.settled
    split at hn <;> cases hn <;> refine ⟨h.workers,h.running,trivial,?_,fun j => ?_,trivial,h.acknowledged⟩
    · simpa [Main.pending] using hsettled
    · simpa [State.taken,State.acked,State.inFlight,hm] using h.routed j
    · simpa [Main.pending] using hsettled
    · simpa [State.taken,State.acked,State.inFlight,hm] using h.routed j
  | settle batch =>
    have hflight : s.inFlight = [] := by simp [State.inFlight,hm]
    cases batch with
    | nil =>
      simp only [hm,Option.some.injEq] at hn
      subst hn
      refine ⟨h.workers,h.running,trivial,?_,fun j => ?_,trivial,h.acknowledged⟩
      · simpa [Main.pending,hm] using h.settled
      · simpa [State.taken,State.acked,State.inFlight,hm] using h.routed j
    | cons msg batch =>
      simp only [hm] at hn
      split at hn
      · cases hn
        exact h.settle (by simp [hm,Main.pending]) (by simp [hflight]) nofun
      · rename_i intent hparse
        obtain ⟨q,hq,rfl⟩ := Option.map_eq_some_iff.mp hn
        exact h.call hm (by simp [intentOf,hparse]) hq
  | enqueuing msg intent batch =>
    obtain ⟨hi,hcall⟩ : s.Calling (.enqueuing msg intent batch) := hm ▸ h.calling
    simp only [hm] at hn
    split at hn
    · rename_i ok hp
      cases hn
      refine h.settle (by simp [hm,Main.pending]) ?_ (by simp [hi])
      cases ok <;> simp [State.inFlight,hm,hp,hi]
    · obtain ⟨q,hq,rfl⟩ := Option.map_eq_some_iff.mp hn
      exact h.produce hm hq
  | clearRunning | join i | returned =>
    have hloop := h.main
    simp [hm,Main.Looping] at hloop

theorem Flow.work {i : WorkerId} {w : Worker} (h : Flow s)
    (hn : (s.workers i).step s.running = some w) :
    Flow { s with workers := Function.update s.workers i w } := by
  rw [h.running] at hn
  obtain ⟨hok,hacc,hprod⟩ := (h.workers i).step hn
  have hproducer : ∀ j, (Function.update s.workers i w j).queue.producer =
      (s.workers j).queue.producer := by
    intro j
    by_cases hj : j = i
    · subst hj
      simpa using hprod
    · simp [hj]
  have hflight : ({ s with workers := Function.update s.workers i w } : State σ).inFlight =
      s.inFlight := by simp only [State.inFlight,hproducer]
  refine ⟨fun j => ?_,h.running,h.main,h.settled,fun j => ?_,?_,h.acknowledged⟩
  · by_cases hj : j = i
    · subst hj
      simpa using hok
    · simpa [hj] using h.workers j
  · have hr := h.routed j
    rw [State.taken,hflight]
    by_cases hj : j = i
    · subst hj
      simpa [hacc,State.taken,State.acked] using hr
    · simpa [hj,State.taken,State.acked] using hr
  · have hc := h.calling
    unfold State.Calling at hc ⊢
    simpa only [hproducer] using hc

theorem reachable_flow (h : (system client).Reachable s) : Flow s := by
  refine h.invariant ?_ ?_
  · rintro s rfl
    exact start_flow client
  · intro s a s' hs hn
    cases a with
    | pull => exact hs.pull hn
    | work i =>
      obtain ⟨w,hw,rfl⟩ := Option.map_eq_some_iff.mp hn
      exact hs.work hw

theorem acked_sublist (vs : List (List Char × Verdict)) :
    (vs.filterMap fun (msg,v) => if v = .ack then intentOf msg else none).Sublist
      ((vs.map (·.1)).filterMap intentOf) := by
  induction vs with
  | nil => exact .slnil
  | cons m vs ih =>
    obtain ⟨msg,v⟩ := m
    simp only [List.map_cons,List.filterMap_cons]
    cases v <;> cases intentOf msg
    · exact ih
    · exact ih.cons_cons _
    · exact ih
    · exact ih.cons _

theorem Flow.taken_sublist (h : Flow s) :
    (s.acked ++ s.inFlight).Sublist (s.fetched.filterMap intentOf) := by
  rw [h.settled,List.filterMap_append]
  refine (acked_sublist s.verdicts).append ?_
  unfold State.inFlight
  split
  · rename_i msg intent batch hm
    obtain ⟨hi,-⟩ : s.Calling (.enqueuing msg intent batch) := hm ▸ h.calling
    split <;> simp [Main.pending,hm,hi]
  · exact List.nil_sublist _

theorem Flow.processed (h : Flow s) (i : WorkerId) :
    (s.workers i).processed ++ (s.workers i).inHand ++ (s.workers i).queue.contents = s.taken i := by
  rw [← (h.workers i).delivered,← h.routed,← (h.workers i).queue.accepted_eq]

theorem Flow.processed_prefix (h : Flow s) (i : WorkerId) :
    (s.workers i).processed <+: s.taken i := by
  rw [← h.processed,List.append_assoc]
  exact List.prefix_append _ _

/-- Each message pulled is settled once, in order, and only intents that were read are
acknowledged; what is taken for a route is processed once, in order, by its worker. -/
theorem processed_in_order (h : (system client).Reachable s) :
    s.fetched = s.verdicts.map (·.1) ++ s.main.pending ∧
    (∀ msg, (msg,.ack) ∈ s.verdicts → (intentOf msg).isSome) ∧
    (s.acked ++ s.inFlight).Sublist (s.fetched.filterMap intentOf) ∧
    ∀ i, (s.workers i).processed ++ (s.workers i).inHand ++ (s.workers i).queue.contents =
      (s.acked ++ s.inFlight).filter (routeIndex · = i) :=
  have hf := reachable_flow h
  ⟨hf.settled,hf.acknowledged,hf.taken_sublist,hf.processed⟩

def oneBatch (batch : List (List Char)) : PullClient Bool where
  start := true
  fetchBatch fresh _ := (if fresh then some batch else none,false)

def twoIntents : PullClient Bool := oneBatch ["1,7,5,1".toList,"x".toList,"2,3,5,1,9".toList]

def twoState : State Bool :=
  ((system twoIntents).exec (start twoIntents)
    (List.replicate 15 .pull ++ List.replicate 7 (.work 3))).get (by decide +kernel)

theorem twoState_reachable : (system twoIntents).Reachable twoState := .exec rfl (by decide +kernel)

theorem processed_in_order_two :
    (twoState.workers 3).processed = [⟨1,7,5,1,0⟩] ∧
    twoState.verdicts.map (·.2) = [.ack,.term,.ack] ∧
    (twoState.workers 3).processed ++ (twoState.workers 3).inHand ++
        (twoState.workers 3).queue.contents =
      (twoState.acked ++ twoState.inFlight).filter (routeIndex · = 3) :=
  ⟨by decide +kernel,by decide +kernel,(processed_in_order twoState_reachable).2.2.2 3⟩

def userRoute (user : UInt64) : WorkerId := Fin.ofNat kWorkers user.toNat

theorem routeIndex_user {o : OrderIntent} {user : UInt64} (hu : user ≠ 0) (ho : o.userId = user) :
    routeIndex o = userRoute user := by
  subst ho
  simp [routeIndex,userRoute,hu]

/-- The intents of one user are processed by one worker, in the order they were pulled. -/
theorem user_in_order {user : UInt64} (h : (system client).Reachable s) (hu : user ≠ 0) :
    (∀ i o, o ∈ (s.workers i).processed → o.userId = user → i = userRoute user) ∧
    (s.workers (userRoute user)).processed.filter (·.userId = user) <+:
      (s.acked ++ s.inFlight).filter (·.userId = user) := by
  have hf := reachable_flow h
  have htaken : ∀ i, (s.workers i).processed <+: s.taken i := hf.processed_prefix
  constructor
  · intro i o ho hou
    have hroute := (List.mem_filter.mp ((htaken i).subset ho)).2
    rw [← routeIndex_user hu hou]
    exact (of_decide_eq_true hroute).symm
  · have hpre := (htaken (userRoute user)).filter (·.userId = user)
    rw [State.taken,List.filter_filter] at hpre
    have hsame : ∀ o ∈ s.acked ++ s.inFlight,
        (decide (o.userId = user) && decide (routeIndex o = userRoute user)) =
          decide (o.userId = user) := by
      intro o _
      by_cases ho : o.userId = user
      · simp [ho,routeIndex_user hu ho]
      · simp [ho]
    rwa [List.filter_congr hsame] at hpre

theorem user_in_order_seven :
    (twoState.workers 3).processed.filter (·.userId = 7) = [⟨1,7,5,1,0⟩] ∧
    (twoState.workers (userRoute 7)).processed.filter (·.userId = 7) <+:
      (twoState.acked ++ twoState.inFlight).filter (·.userId = 7) :=
  ⟨by decide +kernel,(user_in_order twoState_reachable (by decide)).2⟩

end Steps
end Flashsale.CoreConsumer
