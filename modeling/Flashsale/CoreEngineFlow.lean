import Flashsale.CoreEngineSteps
set_option autoImplicit false

namespace Flashsale.CoreEngine
open Transition
variable {κ : Type}

def State.accepted (e : State κ) : List Request := e.queue.tickets.map (·.2)

def routed (i : WorkerId) (rs : List Request) : List Request := rs.filter (i ∈ ·.targets)

def Dispatcher.batch : Dispatcher → List Request
  | .loop _ items | .push _ _ _ items | .pushing _ _ _ _ items | .testRunning _ _ _ _ items => items
  | .dequeue _ batch | .dequeuing _ batch => batch
  | .loadDequeuePos _ | .loadEnqueuePos _ _ | .exited => []

/-- The request in the dispatcher's hand, where worker `i` has still to get it. -/
def State.owed (e : State κ) (i : WorkerId) : List Request :=
  match e.dispatcher with
  | .push _ targets req _ => List.replicate (targets.count i) req
  | .pushing _ j targets req _ =>
      if (e.workers j).queue.producer = .ret true then List.replicate (targets.count i) req
      else List.replicate ((j :: targets).count i) req
  | .testRunning _ j targets req _ => List.replicate ((j :: targets).count i) req
  | _ => []

def State.sent (e : State κ) (i : WorkerId) : List Request :=
  (e.workers i).queue.accepted ++ e.owed i

def Loop.items : Loop → List Request
  | .setBusy items | .process items _ | .flag _ _ items _ => items
  | .notify _ items _ | .publish _ items _ => items
  | .batch | .dequeue _ | .testRunning | .addCount _ | .exited => []

def Worker.batchBuffer (w : Worker) : List Request :=
  match w.pc with
  | .dequeue _ => w.queue.returned
  | pc => pc.items

def Worker.Processing (w : Worker) : Prop := w.processed ++ w.batchBuffer = w.queue.delivered

/-- How many requests the dispatcher has taken, at each of its program points. -/
def State.Taken (e : State κ) : Prop :=
  match e.dispatcher with
  | .dequeuing k batch =>
      (e.queue.pc (.dispatcher k)).dequeuing ∧
      match (e.queue.pc (.dispatcher k)).dequeued with
      | none => e.queue.takers.length = e.handled.length + batch.length
      | some pos =>
          pos = e.handled.length + batch.length ∧ e.queue.takers.length = pos + 1
  | d => e.queue.takers.length = e.handled.length + d.batch.length

structure Ingress (e : State κ) : Prop where
  inv : MpmcQueue.Inv queueCap e.queue
  consumers : MpmcQueue.Consumers (fun c => ∃ k, c = .dispatcher k) e.queue
  taken : e.Taken
  isPrefix : e.handled ++ e.dispatcher.batch <+: e.accepted

structure Sends (e : State κ) : Prop where
  spsc : ∀ i, SpscQueue.Inv 16384 (e.workers i).queue
  processing : ∀ i, (e.workers i).Processing
  pushing : ∀ k i targets req items, e.dispatcher = .pushing k i targets req items →
    (∃ ok, (e.workers i).queue.producer = .ret ok) ∨ (e.workers i).queue.producer.items = [req]
  order : ∀ i, (e.sent i).Sublist (routed i e.handled)
  count : ∀ i req, (e.sent i).count req + e.dropped.count (i,req) = (routed i e.handled).count req
  kept : e.running = true → e.dropped = []

theorem routed_append (i : WorkerId) (l m : List Request) :
    routed i (l ++ m) = routed i l ++ routed i m := List.filter_append l m

theorem mem_routed {i : WorkerId} {rs : List Request} {req : Request} :
    req ∈ routed i rs ↔ req ∈ rs ∧ i ∈ req.targets := by simp [routed]

theorem routed_single (i : WorkerId) (req : Request) :
    routed i [req] = List.replicate (req.targets.count i) req := by
  have hnodup : req.targets.Nodup := by
    unfold Request.targets
    split
    · exact List.nodup_finRange _
    · exact List.nodup_singleton _
  by_cases hi : i ∈ req.targets
  · simp [routed,hi,List.count_eq_one_of_mem hnodup hi]
  · simp [routed,hi,List.count_eq_zero_of_not_mem hi]

section Worker
variable {w w' : Worker} {sh sh' : Shared κ} {i : WorkerId}

theorem Worker.batchBuffer_eq (h : ∀ r, w.pc ≠ .dequeue r) : w.batchBuffer = w.pc.items := by
  unfold Worker.batchBuffer
  cases hpc : w.pc <;> simp_all

theorem ProcessStep.frame {req : Request} {items : List Request} {count : Nat}
    (h : ProcessStep w sh req items count sh' w') :
    w'.queue = w.queue ∧ w'.running = w.running ∧ w'.processed = w.processed ++ [req] ∧
      w'.pc.items = items ∧ (∀ r, w'.pc ≠ .dequeue r) ∧ w'.pc ≠ .exited := by
  cases h <;> simp [Worker.take,Worker.decide,Loop.items]

variable [DecidableEq κ]

theorem WorkStep.queue (h : WorkStep w sh i sh' w') :
    (w'.queue = w.queue ∨ ∃ a, w.queue.next a = some w'.queue) ∧
      w'.queue.accepted = w.queue.accepted ∧ w'.queue.producer = w.queue.producer ∧
      (w.Processing → w'.Processing) := by
  cases h with
  | @ask q recheck pc running next =>
    refine ⟨.inr ⟨_,next⟩,?_⟩
    obtain rfl := SpscQueue.State.callConsumer_eq next
    cases recheck <;>
      simp [Worker.Processing,Worker.batchBuffer,pc,Loop.items,SpscQueue.State.returned]
  | empty recheck pc ret =>
    refine ⟨.inl rfl,rfl,rfl,?_⟩
    simp only [Worker.Processing,Worker.batchBuffer,pc,SpscQueue.State.returned,ret]
    cases recheck <;> simp [Loop.items]
  | taken recheck pc ret =>
    refine ⟨.inl rfl,rfl,rfl,?_⟩
    simp [Worker.Processing,Worker.batchBuffer,pc,SpscQueue.State.returned,ret,Loop.items]
  | consume recheck pc next =>
    obtain ⟨hacc,hprod,hdel⟩ := SpscQueue.State.consume_cases next
    refine ⟨.inr ⟨_,next⟩,hacc,hprod,?_⟩
    have hret : w.queue.returned = [] := by
      unfold SpscQueue.State.returned
      split
      · rename_i items hr
        simp [SpscQueue.State.next,SpscQueue.State.consume,hr] at next
      · rfl
    simp only [Worker.Processing,Worker.batchBuffer,pc,hret,hdel]
    intro hk
    rw [List.append_nil] at hk
    rw [hk]
  | process pc step =>
    obtain ⟨hq,-,hp,hi,hne,-⟩ := step.frame
    refine ⟨.inl hq,by rw [hq],by rw [hq],?_⟩
    rw [Worker.Processing,Worker.Processing,Worker.batchBuffer_eq hne,hi,hp,hq]
    simp [Worker.batchBuffer,pc,Loop.items]
  | @flag req res items count wr pc =>
    obtain ⟨wal,hwal⟩ := w.journal_eq req res wr
    rw [hwal]
    exact ⟨.inl rfl,rfl,rfl,by simp [Worker.Processing,Worker.batchBuffer,pc,Loop.items]⟩
  | publish _ pc _ => exact ⟨.inl rfl,rfl,rfl,id⟩
  | again pc _ | busy pc | idle pc | offer pc _ | published pc _ | refused pc _ | addCount pc =>
    exact ⟨.inl rfl,rfl,rfl,by simp [Worker.Processing,Worker.batchBuffer,pc,Loop.items]⟩

end Worker

section Sends
variable {e e' : State κ}

/-- What a step does to the requests sent to the workers. -/
inductive SendStep (e e' : State κ) : Prop where
  | quiet (sent : ∀ i, e'.sent i = e.sent i) (handled : e'.handled = e.handled)
      (dropped : e'.dropped = e.dropped)
  | handle (req : Request) (sent : ∀ i, e'.sent i = e.sent i ++ routed i [req])
      (handled : e'.handled = e.handled ++ [req]) (dropped : e'.dropped = e.dropped)
  | drop (i : WorkerId) (req : Request) (running : e.running = false)
      (sent : ∀ j, e.sent j = e'.sent j ++ if j = i then [req] else [])
      (handled : e'.handled = e.handled) (dropped : e'.dropped = e.dropped ++ [(i,req)])

theorem sent_congr (hd : e'.dispatcher = e.dispatcher)
    (hq : ∀ i, (e'.workers i).queue.accepted = (e.workers i).queue.accepted ∧
      (e'.workers i).queue.producer = (e.workers i).queue.producer) (i : WorkerId) :
    e'.sent i = e.sent i := by
  simp only [State.sent,State.owed,hd,(hq _).1,(hq _).2]

theorem SendStep.order (h : SendStep e e') {i : WorkerId}
    (ho : (e.sent i).Sublist (routed i e.handled)) : (e'.sent i).Sublist (routed i e'.handled) := by
  cases h with
  | quiet sent handled _ =>
    rw [sent,handled]
    exact ho
  | handle req sent handled _ =>
    rw [sent,handled,routed_append]
    exact ho.append_right _
  | drop j req _ sent handled _ =>
    rw [handled]
    rw [sent i] at ho
    exact (List.sublist_append_left _ _).trans ho

theorem SendStep.count (h : SendStep e e') {i : WorkerId} {r : Request}
    (hc : (e.sent i).count r + e.dropped.count (i,r) = (routed i e.handled).count r) :
    (e'.sent i).count r + e'.dropped.count (i,r) = (routed i e'.handled).count r := by
  cases h with
  | quiet sent handled dropped =>
    rw [sent,handled,dropped]
    exact hc
  | handle req sent handled dropped =>
    rw [sent,handled,dropped,routed_append,List.count_append,List.count_append]
    omega
  | drop j req _ sent handled dropped =>
    rw [sent i,List.count_append] at hc
    rw [handled,dropped,List.count_append,← hc]
    by_cases hj : i = j
    · subst hj
      by_cases hr : r = req
      · simp [hr]
        omega
      · simp [hr,Prod.ext_iff,eq_comm]
    · simp [hj,Prod.ext_iff,eq_comm]

variable [DecidableEq κ]

theorem DispatchStep.send (hs : Sends e) (h : DispatchStep e e') : SendStep e e' := by
  cases h with
  | test k pc =>
    refine .quiet (fun i => ?_) rfl rfl
    cases hr : e.running <;> simp [State.sent,State.owed,pc]
  | loadHead k pc | more k dequeuePos pc lt | leave k dequeuePos pc le | call k batch q pc next
  | empty k batch pc ret | done k req items pc =>
    refine .quiet (fun i => ?_) rfl rfl
    simp [State.sent,State.owed,pc]
  | access k batch spurious q pc next | check c checking => exact .quiet (fun i => rfl) rfl rfl
  | popped k pos req batch pc ret =>
    refine .quiet (fun i => ?_) rfl rfl
    by_cases hb : (batch ++ [req]).length < kDispatchBatch <;>
      simp only [State.sent,State.owed,pc,hb,if_true,if_false]
  | barrier k req items pc id | handle k req items pc id =>
    refine .handle req (fun i => ?_) rfl rfl
    simp [State.sent,State.owed,pc,routed_single]
  | ask k i targets req items q pc next =>
    obtain rfl := SpscQueue.State.callProducer_eq next
    refine .quiet (fun j => ?_) rfl rfl
    by_cases hj : j = i
    · subst hj
      simp [State.sent,State.owed,pc,State.setQueue]
    · simp [State.sent,State.owed,pc,State.setQueue,hj]
  | push k i targets req items q pc next =>
    obtain ⟨-,hcases⟩ := SpscQueue.State.produce_cases next
    have hnot : (e.workers i).queue.producer ≠ .ret true := by
      intro hret
      simp [SpscQueue.State.next,SpscQueue.State.produce,hret] at next
    refine .quiet (fun j => ?_) rfl rfl
    rcases hcases with ⟨hacc,hp,-⟩ | ⟨hacc,hp⟩
    · by_cases hj : j = i
      · subst hj
        simp [State.sent,State.owed,State.setQueue,pc,hnot,hp,hacc]
      · simp [State.sent,State.owed,State.setQueue,pc,hnot,hp,hj]
    · have hitems : (e.workers i).queue.producer.items = [req] := by
        rcases hs.pushing k i targets req items pc with ⟨ok,hret⟩ | hitems
        · simp [SpscQueue.State.next,SpscQueue.State.produce,hret] at next
        · exact hitems
      by_cases hj : j = i
      · subst hj
        simp [State.sent,State.owed,State.setQueue,pc,hnot,hp,hacc,hitems,List.replicate_succ]
      · simp [State.sent,State.owed,State.setQueue,pc,hnot,hp,hj,Ne.symm hj]
  | pushed k i targets req items pc ret =>
    refine .quiet (fun j => ?_) rfl rfl
    simp [State.sent,State.owed,pc,ret]
  | refused k i targets req items pc ret =>
    refine .quiet (fun j => ?_) rfl rfl
    simp [State.sent,State.owed,pc,ret]
  | retry k i targets req items pc running =>
    refine .quiet (fun j => ?_) rfl rfl
    simp [State.sent,State.owed,pc]
  | drop k i targets req items pc running =>
    refine .drop i req running (fun j => ?_) rfl rfl
    by_cases hj : j = i
    · subst hj
      simp [State.sent,State.owed,pc,List.replicate_succ']
    · simp [State.sent,State.owed,pc,hj,Ne.symm hj]

theorem State.next_frame {a : Act κ} (hn : e.next a = some e') (ha : ∀ spurious, a ≠ .dispatch spurious) :
    e'.dispatcher = e.dispatcher ∧ e'.handled = e.handled ∧ e'.dropped = e.dropped ∧
      ∀ i, (e'.workers i).queue.accepted = (e.workers i).queue.accepted ∧
        (e'.workers i).queue.producer = (e.workers i).queue.producer := by
  cases a with
  | dispatch spurious => exact absurd rfl (ha spurious)
  | start c f =>
    simp only [State.next,State.start] at hn
    split at hn
    · cases f with
      | pollResult =>
        obtain ⟨q,-,rfl⟩ := Option.map_eq_some_iff.mp hn
        exact ⟨rfl,rfl,rfl,fun _ => ⟨rfl,rfl⟩⟩
      | _ => cases hn; exact ⟨rfl,rfl,rfl,fun _ => ⟨rfl,rfl⟩⟩
    · cases hn
  | client c spurious =>
    cases State.client_cases hn <;> exact ⟨rfl,rfl,rfl,fun _ => ⟨rfl,rfl⟩⟩
  | work i wr spurious =>
    obtain ⟨⟨sh,w⟩,hw,rfl⟩ := Option.map_eq_some_iff.mp hn
    obtain ⟨-,hacc,hprod,-⟩ := (Worker.step_cases hw).queue
    refine ⟨rfl,rfl,rfl,fun j => ?_⟩
    by_cases hj : j = i
    · subst hj
      simp [hacc,hprod]
    · simp [hj]
  | stop =>
    cases State.stop_cases hn with
    | stopWorker i pc =>
      refine ⟨rfl,rfl,rfl,fun j => ?_⟩
      by_cases hj : j = i
      · subst hj
        simp
      · simp [hj]
    | _ => exact ⟨rfl,rfl,rfl,fun _ => ⟨rfl,rfl⟩⟩

theorem State.next_send {a : Act κ} (hs : Sends e) (hn : e.next a = some e') : SendStep e e' := by
  by_cases ha : ∃ spurious, a = .dispatch spurious
  · obtain ⟨spurious,rfl⟩ := ha
    exact (State.dispatch_cases hn).send hs
  · obtain ⟨hd,hh,hdr,hq⟩ := State.next_frame hn fun s h => ha ⟨s,h⟩
    exact .quiet (sent_congr hd hq) hh hdr

theorem State.next_worker {a : Act κ} (hn : e.next a = some e') (i : WorkerId) :
    ((e'.workers i).queue = (e.workers i).queue ∨
      ∃ b, (e.workers i).queue.next b = some (e'.workers i).queue) ∧
    ((e.workers i).Processing → (e'.workers i).Processing) := by
  have hset : ∀ {j : WorkerId} {q : SpscQueue.State Request} {b : SpscQueue.Act Request},
      (e.workers j).queue.next b = some q → q.delivered = (e.workers j).queue.delivered →
      q.consumer = (e.workers j).queue.consumer →
      (((e.setQueue j q).workers i).queue = (e.workers i).queue ∨
        ∃ b, (e.workers i).queue.next b = some ((e.setQueue j q).workers i).queue) ∧
      ((e.workers i).Processing → ((e.setQueue j q).workers i).Processing) := by
    intro j q b hb hdel hcons
    by_cases hi : i = j
    · subst hi
      simp only [State.setQueue,Function.update_self]
      refine ⟨.inr ⟨b,hb⟩,fun h => ?_⟩
      simpa only [Worker.Processing,Worker.batchBuffer,SpscQueue.State.returned,hdel,hcons] using h
    · simp [State.setQueue,hi]
  cases a with
  | start c f =>
    simp only [State.next,State.start] at hn
    split at hn
    · cases f with
      | pollResult =>
        obtain ⟨q,-,rfl⟩ := Option.map_eq_some_iff.mp hn
        exact ⟨.inl rfl,id⟩
      | _ => cases hn; exact ⟨.inl rfl,id⟩
    · cases hn
  | client c spurious => cases State.client_cases hn <;> exact ⟨.inl rfl,id⟩
  | dispatch spurious =>
    cases State.dispatch_cases hn with
    | ask k j targets req items q pc next =>
      obtain rfl := SpscQueue.State.callProducer_eq next
      exact hset next rfl rfl
    | push k j targets req items q pc next =>
      obtain ⟨⟨hdel,hcons⟩,-⟩ := SpscQueue.State.produce_cases next
      exact hset next hdel hcons
    | _ => exact ⟨.inl rfl,id⟩
  | work j wr spurious =>
    obtain ⟨⟨sh,w⟩,hw,rfl⟩ := Option.map_eq_some_iff.mp hn
    obtain ⟨hq,-,-,hproc⟩ := (Worker.step_cases hw).queue
    by_cases hi : i = j
    · subst hi
      simpa using ⟨hq,hproc⟩
    · simp [hi]
  | stop =>
    cases State.stop_cases hn with
    | stopWorker j pc =>
      by_cases hi : i = j
      · subst hi
        simp [Worker.Processing,Worker.batchBuffer]
      · simp [hi]
    | _ => exact ⟨.inl rfl,id⟩

theorem State.next_running {a : Act κ} (hn : e.next a = some e') (hr : e'.running = true) :
    e.running = true := by
  cases a with
  | start c f =>
    simp only [State.next,State.start] at hn
    split at hn
    · cases f with
      | pollResult =>
        obtain ⟨q,-,rfl⟩ := Option.map_eq_some_iff.mp hn
        exact hr
      | _ => cases hn; exact hr
    · cases hn
  | client c spurious => cases State.client_cases hn <;> exact hr
  | dispatch spurious => cases State.dispatch_cases hn <;> exact hr
  | work j wr spurious =>
    obtain ⟨⟨sh,w⟩,-,rfl⟩ := Option.map_eq_some_iff.mp hn
    exact hr
  | stop =>
    cases State.stop_cases hn with
    | requestStop pc => exact absurd hr (by simp)
    | _ => exact hr

theorem Sends.next {a : Act κ} (h : Sends e) (hn : e.next a = some e') : Sends e' := by
  have hsend := State.next_send h hn
  refine ⟨fun i => ?_,fun i => (State.next_worker hn i).2 (h.processing i),?_,
    fun i => hsend.order (h.order i),fun i req => hsend.count (h.count i req),fun hr => ?_⟩
  · rcases (State.next_worker hn i).1 with hq | ⟨b,hq⟩
    · rw [hq]
      exact h.spsc i
    · exact (h.spsc i).next hq
  · by_cases ha : ∃ spurious, a = .dispatch spurious
    · obtain ⟨spurious,rfl⟩ := ha
      cases State.dispatch_cases hn with
      | ask k i targets req items q pc next =>
        rintro k' i' targets' req' items' ⟨⟩
        obtain rfl := SpscQueue.State.callProducer_eq next
        exact .inr (by simp [State.setQueue,SpscQueue.Producer.items])
      | push k i targets req items q pc next =>
        rintro k' i' targets' req' items' hpc
        obtain ⟨rfl,rfl,rfl,rfl,rfl⟩ : k = k' ∧ i = i' ∧ targets = targets' ∧ req = req' ∧
            items = items' := by simpa [State.setQueue,pc] using hpc
        have hitems : (e.workers i).queue.producer.items = [req] := by
          rcases h.pushing k i targets req items pc with ⟨ok,hret⟩ | hitems
          · simp [SpscQueue.State.next,SpscQueue.State.produce,hret] at next
          · exact hitems
        rcases (SpscQueue.State.produce_cases next).2 with ⟨-,-,hp | hp⟩ | ⟨-,hp⟩
        · exact .inl ⟨false,by simpa [State.setQueue] using hp⟩
        · exact .inr (by simpa [State.setQueue,hitems] using hp)
        · exact .inl ⟨true,by simpa [State.setQueue] using hp⟩
      | access k batch spurious q pc next => exact fun _ _ _ _ _ hpc => by simp [pc] at hpc
      | check c checking => exact h.pushing
      | test k pc =>
        intro k' i' targets' req' items' hpc
        cases hr : e.running <;> simp [hr] at hpc
      | popped k pos req batch pc ret =>
        intro k' i' targets' req' items' hpc
        dsimp only at hpc
        split at hpc <;> cases hpc
      | _ => exact fun _ _ _ _ _ hpc => by cases hpc
    · obtain ⟨hd,-,-,hq⟩ := State.next_frame hn fun s h => ha ⟨s,h⟩
      rw [hd]
      intro k i targets req items hpc
      rw [(hq i).2]
      exact h.pushing k i targets req items hpc
  · have hr' := State.next_running hn hr
    cases hsend with
    | quiet _ _ dropped | handle _ _ _ dropped => rw [dropped]; exact h.kept hr'
    | drop i req running => rw [hr'] at running; cases running

omit [DecidableEq κ] in
theorem initEngine_sends (checkCorrectness : Bool) (barrierReached : UInt64) :
    Sends (initEngine checkCorrectness barrierReached : State κ) where
  spsc _ := SpscQueue.create_inv _
  processing _ := rfl
  pushing _ _ _ _ _ h := by cases h
  order _ := List.Sublist.refl _
  count _ _ := rfl
  kept _ := rfl

end Sends

section Ingress
variable {e e' : State κ}

theorem Ingress.of_eq (h : Ingress e) (hq : e'.queue = e.queue) (hd : e'.dispatcher = e.dispatcher)
    (hh : e'.handled = e.handled) : Ingress e' where
  inv := by rw [hq]; exact h.inv
  consumers := by rw [hq]; exact h.consumers
  taken := by
    have := h.taken
    simpa only [State.Taken,hq,hd,hh] using this
  isPrefix := by
    rw [hd,hh,State.accepted,hq]
    exact h.isPrefix

theorem Ingress.goto {d : Dispatcher} {rs : List Request} (h : Ingress e) (hq : e'.queue = e.queue)
    (hd : e'.dispatcher = d) (hh : e'.handled = rs) (hpc : ∀ k batch, d ≠ .dequeuing k batch)
    (htaken : e.queue.takers.length = (rs ++ d.batch).length)
    (hpre : rs ++ d.batch <+: e.accepted) : Ingress e' where
  inv := by rw [hq]; exact h.inv
  consumers := by rw [hq]; exact h.consumers
  taken := by
    unfold State.Taken
    rw [hd,hh,hq]
    cases d with
    | dequeuing k batch => exact absurd rfl (hpc k batch)
    | _ => simpa using htaken
  isPrefix := by
    rw [hd,hh,State.accepted,hq]
    exact hpre

theorem Ingress.taken_eq (h : Ingress e) (hpc : ∀ k batch, e.dispatcher ≠ .dequeuing k batch) :
    e.queue.takers.length = (e.handled ++ e.dispatcher.batch).length := by
  have htaken := h.taken
  unfold State.Taken at htaken
  cases hd : e.dispatcher with
  | dequeuing k batch => exact absurd hd (hpc k batch)
  | _ => simpa [hd] using htaken

variable [DecidableEq κ]

theorem Ingress.client {a : MpmcQueue.Act Request (Caller κ)} (h : Ingress e)
    (hn : e.queue.next a = some e'.queue) (hd : e'.dispatcher = e.dispatcher)
    (hh : e'.handled = e.handled)
    (ha : (∃ c k req, a = .enqueue (.client c k) req) ∨ ∃ c k b, a = .step (.client c k) b) :
    Ingress e' := by
  have hcons : MpmcQueue.Consumers (fun c => ∃ k, c = .dispatcher k) e'.queue :=
    h.consumers.next (by rintro c rfl; rcases ha with ⟨_,_,_,ha⟩ | ⟨_,_,_,ha⟩ <;> cases ha) hn
  have hframe : e'.queue.takers = e.queue.takers ∧
      ∀ k, e'.queue.pc (.dispatcher k) = e.queue.pc (.dispatcher k) := by
    rcases ha with ⟨c,k,req,rfl⟩ | ⟨c,k,b,rfl⟩
    · obtain ⟨-,hq⟩ := MpmcQueue.State.call_eq hn
      rw [hq]
      exact ⟨rfl,fun k' => MpmcQueue.State.goto_pc_of_ne (by simp)⟩
    · refine ⟨?_,fun k' => MpmcQueue.State.step_pc_of_ne hn (by simp)⟩
      cases (MpmcQueue.State.step_effect hn).2.2 with
      | quiet ht htk hw => exact htk
      | won data hi ht htk => exact htk
      | took hdeq hb haf ht htk =>
        obtain ⟨k',hk'⟩ := h.consumers _ hdeq
        cases hk'
  obtain ⟨htk,hpc⟩ := hframe
  refine ⟨h.inv.next trivial hn,hcons,?_,?_⟩
  · have htaken := h.taken
    simpa only [State.Taken,hd,hh,htk,hpc] using htaken
  · rw [hd,hh]
    exact h.isPrefix.trans ((MpmcQueue.State.next_tickets hn).map _)

theorem Ingress.dispatch (h : Ingress e) (hs : DispatchStep e e') : Ingress e' := by
  have hpre := h.isPrefix
  cases hs with
  | test k pc =>
    have hlen := h.taken_eq (by simp [pc])
    rw [pc] at hpre hlen
    refine h.goto rfl rfl rfl ?_ ?_ ?_ <;> cases e.running <;>
      first | exact hlen | exact hpre | simp
  | loadHead k pc | more k dequeuePos pc lt | leave k dequeuePos pc le | done k req items pc
  | pushed k i targets req items pc ret | refused k i targets req items pc ret
  | retry k i targets req items pc running | drop k i targets req items pc running =>
    have hlen := h.taken_eq (by simp [pc])
    rw [pc] at hpre hlen
    exact h.goto rfl rfl rfl (by simp) hlen hpre
  | barrier k req items pc id | handle k req items pc id =>
    have hlen := h.taken_eq (by simp [pc])
    rw [pc] at hpre hlen
    refine h.goto rfl rfl rfl (by simp) ?_ ?_
    · simpa [Dispatcher.batch,add_assoc,add_comm] using hlen
    · simpa [Dispatcher.batch] using hpre
  | ask k i targets req items q pc next =>
    have hlen := h.taken_eq (by simp [pc])
    rw [pc] at hpre hlen
    exact h.goto rfl rfl rfl (by simp) hlen hpre
  | push k i targets req items q pc next | check c checking => exact h.of_eq rfl rfl rfl
  | empty k batch pc ret =>
    have htaken := h.taken
    simp only [State.Taken,pc,ret,MpmcQueue.Pc.dequeued] at htaken
    rw [pc] at hpre
    exact h.goto rfl rfl rfl (by simp) (by simpa [Dispatcher.batch] using htaken.2) hpre
  | popped k pos req batch pc ret =>
    have htaken := h.taken
    have hok := h.inv.pcs (.dispatcher k)
    simp only [State.Taken,pc,ret,MpmcQueue.Pc.dequeued] at htaken
    rw [ret] at hok
    rw [pc] at hpre
    obtain ⟨-,hpos,hlen⟩ := htaken
    obtain ⟨-,c,hget⟩ := hok
    have hticket : e.queue.tickets[pos]? = some (c,req) := hget
    have hbatch : ∀ {d : Dispatcher}, (d = .dequeue (k+1) (batch ++ [req]) ∨
        d = .loop (k+1) (batch ++ [req])) → d.batch = batch ++ [req] ∧
          ∀ k batch, d ≠ .dequeuing k batch := by
      rintro d (rfl | rfl) <;> simp [Dispatcher.batch]
    obtain ⟨hb,hne⟩ := hbatch (d := if (batch ++ [req]).length < kDispatchBatch then
      .dequeue (k+1) (batch ++ [req]) else .loop (k+1) (batch ++ [req])) (by split <;> simp)
    have hnext : e.accepted[(e.handled ++ batch).length]? = some req := by
      rw [List.length_append,← hpos]
      simp [State.accepted,hticket]
    refine h.goto rfl rfl rfl hne ?_ ?_
    · rw [hb]
      simp only [List.length_append,List.length_cons,List.length_nil]
      omega
    · rw [hb,← List.append_assoc]
      obtain ⟨more,hmore⟩ := hpre
      simp only [Dispatcher.batch] at hmore
      rw [← hmore,List.getElem?_append_right (Nat.le_refl _),Nat.sub_self] at hnext
      cases more with
      | nil => simp at hnext
      | cons r more =>
        obtain rfl : r = req := by simpa using hnext
        exact ⟨more,by rw [← hmore]; simp⟩
  | call k batch q pc next =>
    have hlen := h.taken_eq (by simp [pc])
    have hinv := h.inv.next trivial next
    have hcons := h.consumers.next (by rintro c ⟨⟩; exact ⟨k,rfl⟩) next
    obtain ⟨-,rfl⟩ := MpmcQueue.State.call_eq next
    rw [pc] at hpre hlen
    refine ⟨hinv,hcons,?_,hpre⟩
    simp only [State.Taken,MpmcQueue.State.goto_pc_self]
    exact ⟨rfl,by simpa [Dispatcher.batch,MpmcQueue.Pc.dequeued,MpmcQueue.State.goto] using hlen⟩
  | access k batch spurious q pc next =>
    have htaken := h.taken
    simp only [State.Taken,pc] at htaken
    obtain ⟨hdeq,hhand⟩ := htaken
    obtain ⟨-,hdeq',heff⟩ := MpmcQueue.State.step_effect next
    rw [hdeq] at hdeq'
    refine ⟨h.inv.next trivial next,h.consumers.next (by simp) next,?_,
      hpre.trans ((MpmcQueue.State.next_tickets (a := .step (.dispatcher k) spurious) next).map _)⟩
    simp only [State.Taken,pc]
    refine ⟨hdeq',?_⟩
    cases heff with
    | quiet ht htk hw => simpa only [hw,htk] using hhand
    | won data hi ht htk =>
      rw [MpmcQueue.Pc.item_eq_none_of_dequeuing hdeq] at hi
      cases hi
    | took _ hbefore hafter ht htk =>
      have hpos : e.queue.dequeuePos = e.queue.takers.length := h.inv.dequeuePos
      rw [hbefore] at hhand
      simp only [hafter,htk,List.length_append,List.length_cons,List.length_nil]
      exact ⟨hpos.trans hhand,by omega⟩

theorem Ingress.next {a : Act κ} (h : Ingress e) (hn : e.next a = some e') : Ingress e' := by
  cases a with
  | start c f =>
    simp only [State.next,State.start] at hn
    split at hn
    · cases f with
      | pollResult =>
        obtain ⟨q,-,rfl⟩ := Option.map_eq_some_iff.mp hn
        exact h.of_eq rfl rfl rfl
      | _ => cases hn; exact h.of_eq rfl rfl rfl
    · cases hn
  | client c spurious =>
    cases State.client_cases hn with
    | attempt req todo n pc idle =>
      exact h.client (a := .enqueue (.client c n) req)
        (by simp [MpmcQueue.State.next,MpmcQueue.State.call,idle,State.setCall]) rfl rfl (.inl ⟨_,_,_,rfl⟩)
    | signal k pc idle =>
      exact h.client (a := .enqueue (.client c k) barrierRequest)
        (by simp [MpmcQueue.State.next,MpmcQueue.State.call,idle,State.setCall]) rfl rfl (.inl ⟨_,_,_,rfl⟩)
    | access k b q pc next => exact h.client next rfl rfl (.inr ⟨_,_,_,rfl⟩)
    | _ => exact h.of_eq rfl rfl rfl
  | dispatch spurious => exact h.dispatch (State.dispatch_cases hn)
  | work i wr spurious =>
    obtain ⟨⟨sh,w⟩,-,rfl⟩ := Option.map_eq_some_iff.mp hn
    exact h.of_eq rfl rfl rfl
  | stop => cases State.stop_cases hn <;> exact h.of_eq rfl rfl rfl

omit [DecidableEq κ] in
theorem queue_created : MpmcQueue.create queueCap =
    some ((initEngine false 0 : State κ).queue) := rfl

omit [DecidableEq κ] in
theorem initEngine_ingress (checkCorrectness : Bool) (barrierReached : UInt64) :
    Ingress (initEngine checkCorrectness barrierReached : State κ) where
  inv := MpmcQueue.create_inv queue_created
  consumers := by
    intro c hc
    simp [initEngine,MpmcQueue.create,Option.get] at hc
    cases hc
  taken := rfl
  isPrefix := List.prefix_refl _

theorem initEngine_init (checkCorrectness : Bool) (barrierReached : UInt64) :
    system.init (initEngine checkCorrectness barrierReached : State κ) :=
  ⟨checkCorrectness,barrierReached,rfl⟩

theorem reachable_flow (h : system.Reachable e) : Ingress e ∧ Sends e := by
  refine h.invariant (I := fun e => Ingress e ∧ Sends e) ?_ ?_
  · rintro e ⟨c,b,rfl⟩
    exact ⟨initEngine_ingress c b,initEngine_sends c b⟩
  · intro e a e' hi hn
    exact ⟨hi.1.next hn,hi.2.next hn⟩

end Ingress
end Flashsale.CoreEngine
