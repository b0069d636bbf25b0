import Flashsale.CoreEngineDrain
import Mathlib
set_option autoImplicit false

namespace Flashsale.CoreEngine
open Transition
variable {κ : Type}

section Worker
variable {w w' : Worker} {sh sh' : Shared κ} {i : WorkerId}

/-- `Loop` leaves by its second look at the queue, and only once `running_` is false. -/
structure LoopOk (w : Worker) : Prop where
  spsc : SpscQueue.Inv 16384 w.queue
  asks : w.queue.consumer.Asks kBatchSize
  leaving : w.pc = .dequeue true ∨ w.pc = .exited → w.running = false
  drained : (w.pc = .dequeue true ∧ w.queue.consumer = .ret []) ∨ w.pc = .exited →
    w.queue.delivered = w.queue.accepted

theorem LoopOk.of_pc (h : LoopOk w) (hq : w'.queue = w.queue) (hd : w'.pc ≠ .dequeue true)
    (hx : w'.pc ≠ .exited) : LoopOk w' where
  spsc := hq ▸ h.spsc
  asks := hq ▸ h.asks
  leaving hl := absurd hl (by simp [hd,hx])
  drained hl := absurd hl (by simp [hd,hx])

theorem LoopOk.push {q : SpscQueue.State Request} {a : SpscQueue.Act Request} (h : LoopOk w)
    (hn : w.queue.next a = some q) (hc : q.consumer = w.queue.consumer) (hr : w.running = true) :
    LoopOk { w with queue := q } where
  spsc := h.spsc.next hn
  asks := by rw [hc]; exact h.asks
  leaving hl := absurd (h.leaving hl) (by simp [hr])
  drained hl := by
    have hpc : w.pc = .dequeue true ∨ w.pc = .exited := hl.imp (·.1) id
    exact absurd (h.leaving hpc) (by simp [hr])

theorem LoopOk.stop (h : LoopOk w) : LoopOk { w with running := false } :=
  ⟨h.spsc,h.asks,fun _ => rfl,h.drained⟩

variable [DecidableEq κ]

theorem WorkStep.loop (hs : WorkStep w sh i sh' w') (h : LoopOk w) :
    LoopOk w' ∧ w'.running = w.running ∧ w.pc ≠ .exited := by
  cases hs with
  | @ask q recheck pc running next =>
    have hspsc := h.spsc.next next
    obtain rfl := SpscQueue.State.callConsumer_eq next
    refine ⟨⟨hspsc,rfl,fun hl => running (by simpa using hl),?_⟩,rfl,?_⟩
    · rintro (⟨-,hl⟩ | hl) <;> cases hl
    · rw [pc]
      cases recheck <;> simp
  | empty recheck pc ret =>
    refine ⟨?_,rfl,by simp [pc]⟩
    cases recheck with
    | false => exact h.of_pc rfl (by simp) (by simp)
    | true => exact ⟨h.spsc,h.asks,fun _ => h.leaving (.inl pc),fun _ => h.drained (.inl ⟨pc,ret⟩)⟩
  | @consume q recheck pc next =>
    have hspsc := h.spsc.next next
    refine ⟨⟨hspsc,h.asks.consume next,by simpa only [pc] using h.leaving,?_⟩,rfl,by simp [pc]⟩
    rintro (⟨-,hret⟩ | hl)
    · exact hspsc.prefix_.eq_of_length (h.spsc.empty_of_returned h.asks (by decide) next hret)
    · exact absurd hl (by simp [pc])
  | process pc step =>
    obtain ⟨hq,hr,-,-,hne,hx⟩ := step.frame
    exact ⟨h.of_pc hq (hne true) hx,hr,by simp [pc]⟩
  | @flag req res items count wr pc =>
    obtain ⟨wal,hwal⟩ := w.journal_eq req res wr
    rw [hwal]
    exact ⟨h.of_pc rfl (by simp) (by simp),rfl,by simp [pc]⟩
  | publish _ pc _ => exact ⟨h,rfl,by simp [pc]⟩
  | taken _ pc _ | again pc _ | busy pc | idle pc | offer pc _ | published pc _ | refused pc _
  | addCount pc => exact ⟨h.of_pc rfl (by simp) (by simp),rfl,by simp [pc]⟩

end Worker

def Stop.stopped : Stop → Nat → Prop
  | .notCalled, _ | .joinDispatcher, _ => False
  | .stopWorker k, i => i < k
  | .joinWorker k, i => i ≤ k
  | .returned, _ => True

def Stop.left : Stop → Nat → Prop
  | .notCalled, _ | .joinDispatcher, _ => False
  | .stopWorker k, i | .joinWorker k, i => i < k
  | .returned, _ => True

def Stop.joined : Stop → Bool
  | .notCalled | .joinDispatcher => false
  | .stopWorker _ | .joinWorker _ | .returned => true

def Dispatcher.leaving : Dispatcher → Bool
  | .loadDequeuePos _ | .loadEnqueuePos _ _ | .exited => true
  | _ => false

structure Stopping (e : State κ) : Prop where
  running : e.running = true ↔ e.stop = .notCalled
  leaving : e.dispatcher.leaving = true → e.running = false
  joined : e.stop.joined = true → e.dispatcher = .exited
  loop : ∀ i, LoopOk (e.workers i)
  stopped : ∀ i : WorkerId, (e.workers i).running = false → e.stop.stopped i
  left : ∀ i : WorkerId, e.stop.left i → (e.workers i).pc = .exited

theorem Stop.joined_of_stopped {st : Stop} {i : Nat} (h : st.stopped i) : st.joined = true := by
  cases st <;> simp_all [Stop.stopped,Stop.joined]

theorem initEngine_stopping (checkCorrectness : Bool) (barrierReached : UInt64) :
    Stopping (initEngine checkCorrectness barrierReached : State κ) where
  running := ⟨fun _ => rfl,fun _ => rfl⟩
  leaving h := by cases h
  joined h := by cases h
  loop _ := {
    spsc := SpscQueue.create_inv _
    asks := trivial
    leaving := fun h => by rcases h with h | h <;> cases h
    drained := fun h => by rcases h with ⟨h,-⟩ | h <;> cases h }
  stopped _ h := by cases h
  left _ h := by cases h

section Steps
variable {e e' : State κ}

theorem Stopping.of_eq (h : Stopping e) (hr : e'.running = e.running) (hd : e'.dispatcher = e.dispatcher)
    (hw : e'.workers = e.workers) (hs : e'.stop = e.stop) : Stopping e' where
  running := by rw [hr,hs]; exact h.running
  leaving := by rw [hd,hr]; exact h.leaving
  joined := by rw [hd,hs]; exact h.joined
  loop := by rw [hw]; exact h.loop
  stopped := by rw [hw,hs]; exact h.stopped
  left := by rw [hw,hs]; exact h.left

theorem Stopping.goto (h : Stopping e) (hr : e'.running = e.running) (hw : e'.workers = e.workers)
    (hs : e'.stop = e.stop) (hnot : e.dispatcher ≠ .exited)
    (hleave : e'.dispatcher.leaving = true → e.running = false) : Stopping e' where
  running := by rw [hr,hs]; exact h.running
  leaving := by rw [hr]; exact hleave
  joined hj := by
    rw [hs] at hj
    exact absurd (h.joined hj) hnot
  loop := by rw [hw]; exact h.loop
  stopped := by rw [hw,hs]; exact h.stopped
  left := by rw [hw,hs]; exact h.left

theorem Stopping.worker_running (h : Stopping e) (hnot : e.dispatcher ≠ .exited) (i : WorkerId) :
    (e.workers i).running = true := by
  by_contra hr
  exact hnot (h.joined (Stop.joined_of_stopped (h.stopped i (by simpa using hr))))

theorem Stopping.push {i : WorkerId} {q : SpscQueue.State Request} {a : SpscQueue.Act Request}
    (h : Stopping e) (hnot : e.dispatcher ≠ .exited) (hn : (e.workers i).queue.next a = some q)
    (hc : q.consumer = (e.workers i).queue.consumer) : Stopping (e.setQueue i q) := by
  have hworker : ∀ j, ((e.setQueue i q).workers j).running = (e.workers j).running ∧
      ((e.setQueue i q).workers j).pc = (e.workers j).pc := by
    intro j
    by_cases hj : j = i
    · subst hj
      simp [State.setQueue]
    · simp [State.setQueue,hj]
  refine ⟨h.running,h.leaving,h.joined,fun j => ?_,fun j => ?_,fun j => ?_⟩
  · by_cases hj : j = i
    · subst hj
      simpa [State.setQueue] using (h.loop j).push hn hc (h.worker_running hnot j)
    · simpa [State.setQueue,hj] using h.loop j
  · rw [(hworker j).1]
    exact h.stopped j
  · rw [(hworker j).2]
    exact h.left j

variable [DecidableEq κ]

theorem Stopping.dispatch (h : Stopping e) (hs : DispatchStep e e') : Stopping e' := by
  cases hs with
  | test k pc =>
    refine h.goto rfl rfl rfl (by simp [pc]) ?_
    cases hr : e.running <;> simp [Dispatcher.leaving]
  | loadHead k pc => exact h.goto rfl rfl rfl (by simp [pc]) fun _ => h.leaving (by rw [pc]; rfl)
  | leave k d pc le => exact h.goto rfl rfl rfl (by simp [pc]) fun _ => h.leaving (by rw [pc]; rfl)
  | more k d pc lt | empty k batch pc ret | barrier k req items pc id | handle k req items pc id
  | done k req items pc | pushed k i targets req items pc ret | refused k i targets req items pc ret
  | retry k i targets req items pc running | drop k i targets req items pc running
  | call k batch q pc next =>
    exact h.goto rfl rfl rfl (by simp [pc]) (by simp [Dispatcher.leaving])
  | popped k pos req batch pc ret =>
    refine h.goto rfl rfl rfl (by simp [pc]) ?_
    dsimp only
    split <;> simp [Dispatcher.leaving]
  | access k batch b q pc next => exact h.of_eq rfl rfl rfl rfl
  | check c checking => exact h.of_eq rfl rfl rfl rfl
  | ask k i targets req items q pc next =>
    obtain rfl := SpscQueue.State.callProducer_eq next
    exact (h.push (by simp [pc]) next rfl).goto rfl rfl rfl (by simp [State.setQueue,pc])
      (by simp [Dispatcher.leaving])
  | push k i targets req items q pc next =>
    exact h.push (by simp [pc]) next (SpscQueue.State.produce_cases next).1.2

omit [DecidableEq κ] in
theorem Stopping.stop (h : Stopping e) (hs : StopStep e e') : Stopping e' := by
  have hrun := h.running
  have hjoined := h.joined
  have hstopped := h.stopped
  have hleft := h.left
  cases hs with
  | requestStop pc =>
    rw [pc] at hstopped
    exact ⟨by simp,fun _ => rfl,by simp [Stop.joined],h.loop,fun i hf => (hstopped i hf).elim,
      fun i hl => hl.elim⟩
  | joinDispatcher pc exited =>
    rw [pc] at hrun hstopped
    exact ⟨by simpa using hrun,h.leaving,fun _ => exited,h.loop,fun i hf => (hstopped i hf).elim,
      fun i hl => absurd hl (Nat.not_lt_zero i)⟩
  | stopWorker i pc =>
    rw [pc] at hrun hjoined hstopped hleft
    refine ⟨by simpa using hrun,h.leaving,fun _ => hjoined rfl,fun j => ?_,fun j hf => ?_,fun j hl => ?_⟩ <;>
      by_cases hj : j = i
    · subst hj
      simpa using (h.loop j).stop
    · simpa [hj] using h.loop j
    · subst hj
      exact Nat.le_refl _
    · exact Nat.le_of_lt (hstopped j (by simpa [hj] using hf))
    · subst hj
      exact absurd hl (Nat.lt_irrefl _)
    · simpa [hj] using hleft j hl
  | joinWorker i pc exited =>
    rw [pc] at hrun hjoined hstopped hleft
    refine ⟨by simpa using hrun,h.leaving,fun _ => hjoined rfl,h.loop,
      fun j hf => Nat.lt_succ_of_le (hstopped j hf),fun j hl => ?_⟩
    rcases Nat.lt_succ_iff_lt_or_eq.mp hl with hlt | heq
    · exact hleft j hlt
    · obtain rfl : j = i := Fin.ext heq
      exact exited
  | returned i pc ge =>
    rw [pc] at hrun hjoined hleft
    exact ⟨by simpa using hrun,h.leaving,fun _ => hjoined rfl,h.loop,fun _ _ => trivial,
      fun j _ => hleft j (Nat.lt_of_lt_of_le j.isLt ge)⟩

theorem Stopping.next {a : Act κ} (h : Stopping e) (hn : e.next a = some e') : Stopping e' := by
  cases a with
  | start c f =>
    simp only [State.next,State.start] at hn
    split at hn
    · cases f with
      | pollResult =>
        obtain ⟨q,-,rfl⟩ := Option.map_eq_some_iff.mp hn
        exact h.of_eq rfl rfl rfl rfl
      | _ => cases hn; exact h.of_eq rfl rfl rfl rfl
    · cases hn
  | client c b => cases State.client_cases hn <;> exact h.of_eq rfl rfl rfl rfl
  | dispatch b => exact h.dispatch (State.dispatch_cases hn)
  | stop => exact h.stop (State.stop_cases hn)
  | work i wr b =>
    obtain ⟨⟨sh,w⟩,hw,rfl⟩ := Option.map_eq_some_iff.mp hn
    obtain ⟨hloop,hr,hnot⟩ := (Worker.step_cases hw).loop (h.loop i)
    refine ⟨h.running,h.leaving,h.joined,fun j => ?_,fun j => ?_,fun j hl => ?_⟩ <;>
      by_cases hj : j = i
    · subst hj
      simpa using hloop
    · simpa [hj] using h.loop j
    · subst hj
      simpa [hr] using h.stopped j
    · simpa [hj] using h.stopped j
    · subst hj
      exact absurd (h.left j hl) hnot
    · simpa [hj] using h.left j hl

theorem reachable_stopping (h : system.Reachable e) : Stopping e := by
  refine h.invariant (I := Stopping) ?_ ?_
  · rintro e ⟨c,b,rfl⟩
    exact initEngine_stopping c b
  · exact fun _ _ _ hs hn => hs.next hn

end Steps

section Returned
variable {e : State κ}

theorem Request.targets_ne_nil (req : Request) : req.targets ≠ [] := by
  unfold Request.targets
  split
  · exact List.ne_nil_of_mem (List.mem_finRange 0)
  · simp

theorem Ingress.exited (h : Ingress e) (hd : e.dispatcher = .exited) :
    e.handled = e.accepted.take e.queue.takers.length := by
  have hlen := h.taken_eq (by simp [hd])
  have hpre := h.isPrefix
  simp only [hd,Dispatcher.batch,List.append_nil] at hlen hpre
  rw [hlen]
  exact List.prefix_iff_eq_take.mp hpre

theorem Stopping.processed_eq (h : Stopping e) (hs : Sends e) (hret : e.stop = .returned)
    (i : WorkerId) : (e.workers i).processed = e.sent i := by
  have hexit : (e.workers i).pc = .exited := h.left i (by rw [hret]; trivial)
  have hdisp : e.dispatcher = .exited := h.joined (by rw [hret]; rfl)
  have hproc := hs.processing i
  rw [Worker.Processing,Worker.batchBuffer_eq (by simp [hexit]),hexit,
    (h.loop i).drained (.inr hexit)] at hproc
  simpa [State.sent,State.owed,hdisp,Loop.items] using hproc

/-- Nothing was dropped and no ticket was left to take. -/
theorem lossless_iff (hi : Ingress e) (hs : Sends e) (hd : e.dispatcher = .exited)
    (hproc : ∀ i, (e.workers i).processed = e.sent i) :
    (∀ i, (e.workers i).processed = routed i e.accepted) ↔
      e.dropped = [] ∧ e.queue.takers.length = e.queue.tickets.length := by
  have hhandled := hi.exited hd
  constructor
  · intro h
    have hcount : ∀ i req, (routed i e.accepted).count req + e.dropped.count (i,req) =
        (routed i e.handled).count req := fun i req => by
      rw [← hs.count i req,← hproc i,h i]
    have hle : ∀ i req, (routed i e.handled).count req ≤ (routed i e.accepted).count req := by
      intro i req
      rw [hhandled]
      exact ((List.take_sublist _ _).filter _).count_le req
    have hdropped : e.dropped = [] := by
      refine List.eq_nil_iff_forall_not_mem.mpr fun ⟨i,req⟩ hm => ?_
      have hpos := List.count_pos_iff.mpr hm
      have := hcount i req
      have := hle i req
      omega
    refine ⟨hdropped,?_⟩
    by_contra hne
    have hlt : e.queue.takers.length < e.accepted.length := by
      have := hi.inv.order
      simp only [State.accepted,List.length_map]
      omega
    have hsplit : e.accepted =
        e.handled ++ e.accepted[e.queue.takers.length] :: e.accepted.drop (e.queue.takers.length + 1) := by
      rw [hhandled,← List.drop_eq_getElem_cons hlt,List.take_append_drop]
    obtain ⟨i,hmem⟩ := List.exists_mem_of_ne_nil _
      (Request.targets_ne_nil e.accepted[e.queue.takers.length])
    have hsame : routed i e.accepted = routed i e.handled := by
      rw [← h i,hproc i,hs.sent_eq hdropped]
    rw [hsplit,routed_append] at hsame
    have hnil : routed i (e.accepted[e.queue.takers.length] ::
        e.accepted.drop (e.queue.takers.length + 1)) = [] := by
      simpa using hsame
    rw [routed,List.filter_eq_nil_iff] at hnil
    exact hnil _ List.mem_cons_self (decide_eq_true hmem)
  · rintro ⟨hdropped,hlen⟩ i
    rw [hproc i,hs.sent_eq hdropped,hhandled,hlen]
    have hall : e.accepted.take e.queue.tickets.length = e.accepted :=
      List.take_of_length_le (by simp [State.accepted])
    rw [hall]

variable [DecidableEq κ]

/-- When `StopEngine` returns, each worker has processed the requests the dispatcher took
for it in their order, but for the dropped ones; all accepted requests are processed
where none was dropped and no ticket was won behind the dispatcher's back. -/
theorem stop_accounts (h : system.Reachable e) (hret : e.stop = .returned) :
    (∀ i, (e.workers i).processed.Sublist (routed i (e.accepted.take e.queue.takers.length)) ∧
      ∀ req, (e.workers i).processed.count req + e.dropped.count (i,req) =
        (routed i (e.accepted.take e.queue.takers.length)).count req) ∧
    ((∀ i, (e.workers i).processed = routed i e.accepted) ↔
      e.dropped = [] ∧ e.queue.takers.length = e.queue.tickets.length) := by
  obtain ⟨hi,hs⟩ := reachable_flow h
  have hstop := reachable_stopping h
  have hd : e.dispatcher = .exited := hstop.joined (by rw [hret]; rfl)
  have hproc := hstop.processed_eq hs hret
  refine ⟨fun i => ?_,lossless_iff hi hs hd hproc⟩
  rw [← hi.exited hd,hproc i]
  exact ⟨hs.order i,hs.count i⟩

/-- `StopEngine` is called right after a batch, before the dispatcher has seen it. -/
def stopStart : State Bool :=
  (system.exec (initEngine true 0)
    (.start true (.enqueueBatch threeRequests) :: List.replicate 23 (.client true false))).get
    (by decide +kernel)

def stopRest : List (Act Bool) :=
  List.replicate 67 (Act.dispatch false) ++ List.replicate 2 Act.stop ++
    List.replicate 26 (Act.work 0 wholeWrite false) ++ List.replicate 2 Act.stop ++
    List.replicate 8 (Act.work 1 wholeWrite false) ++ List.replicate 2 Act.stop ++
    List.replicate 8 (Act.work 2 wholeWrite false) ++ List.replicate 2 Act.stop ++
    List.replicate 36 (Act.work 3 wholeWrite false) ++ List.replicate 2 Act.stop

def stopEnd : State Bool := (system.exec stopStart (.stop :: stopRest)).get (by decide +kernel)

theorem stopStart_reachable : system.Reachable stopStart :=
  .exec (initEngine_init true 0) (by decide +kernel)

theorem stopEnd_run : system.Run stopStart (.stop :: stopRest) stopEnd :=
  System.run_of_exec (Option.some_get _).symm

theorem stop_accounts_three : stopEnd.accepted = threeRequests ∧
    ∀ i, (stopEnd.workers i).processed = routed i stopEnd.accepted :=
  ⟨by decide +kernel,(stop_accounts (stopStart_reachable.run stopEnd_run) (by decide +kernel)).2.mpr
    ⟨by decide +kernel,by decide +kernel⟩⟩

end Returned

/-- The call brings nothing in once the engine stops. -/
def Call.harmless : Call → Bool
  | .idle | .requestTestRunning _ | .batchTestRunning _ | .storeCheck _ | .resetExpectedSeq
  | .resetGapCount | .resetDupCount | .resetLastSeqSeen | .loadLastSeqSeen | .loadGapCount _
  | .loadDupCount _ _ | .polling
  | .ret _ | .retResult _ | .retStats _ _ _ => true
  | .testFlag _ | .enqueue _ _ | .enqueuing _ _ | .enterDrain | .resetBarrier | .signal _
  | .signalling _ | .awaitBarrier | .awaitRunning | .leaveDrain => false

def State.refused (e : State κ) : Prop :=
  match e.dispatcher with
  | .pushing _ i _ _ _ => (e.workers i).queue.producer = .ret false
  | .testRunning _ _ _ _ _ => True
  | _ => False

/-- The engine stops; nobody brings anything in, and every queue has room for what is left. -/
structure Winding (won : List (Caller κ × Request)) (e : State κ) : Prop where
  running : e.running = false
  calls : ∀ c, (e.calls c).harmless = true
  tickets : e.queue.tickets = won
  kept : e.dropped = []
  unrefused : ¬e.refused
  head : ∀ k d, e.dispatcher = .loadEnqueuePos k d → d = e.queue.takers.length
  exited : e.dispatcher = .exited → e.queue.takers.length = won.length
  room : ∀ i, (routed i (won.map (·.2))).length ≤ (e.workers i).processed.length + 16384

section Winding
variable {won : List (Caller κ × Request)} {e e' : State κ}

theorem Winding.of_frame (h : Winding won e) (hr : e'.running = e.running)
    (hcalls : ∀ c, (e'.calls c).harmless = true) (hq : e'.queue = e.queue)
    (hdisp : e'.dispatcher = e.dispatcher) (hdropped : e'.dropped = e.dropped)
    (hprod : ∀ i, (e'.workers i).queue.producer = (e.workers i).queue.producer)
    (hproc : ∀ i, (e.workers i).processed <+: (e'.workers i).processed) : Winding won e' where
  running := hr.trans h.running
  calls := hcalls
  tickets := by rw [hq]; exact h.tickets
  kept := hdropped.trans h.kept
  unrefused := by
    simp only [State.refused,hdisp,hprod]
    exact h.unrefused
  head := by rw [hdisp,hq]; exact h.head
  exited := by rw [hdisp,hq]; exact h.exited
  room i := by
    have := h.room i
    have := (hproc i).length_le
    omega

theorem Winding.goto (h : Winding won e) (hr : e'.running = e.running) (hc : e'.calls = e.calls)
    (hq : e'.queue.tickets = e.queue.tickets) (hdropped : e'.dropped = e.dropped)
    (hunref : ¬e'.refused) (hleave : e'.dispatcher.leaving = false)
    (hproc : ∀ i, (e'.workers i).processed = (e.workers i).processed) : Winding won e' where
  running := hr.trans h.running
  calls := by rw [hc]; exact h.calls
  tickets := hq.trans h.tickets
  kept := hdropped.trans h.kept
  unrefused := hunref
  head k d hd := by rw [hd] at hleave; cases hleave
  exited hd := by rw [hd] at hleave; cases hleave
  room i := by rw [hproc]; exact h.room i

theorem Winding.unrefused_push {k : Nat} {i : WorkerId} {targets : List WorkerId} {req : Request}
    {items : List Request} {q : SpscQueue.State Request} (h : Winding won e) (hs : Sends e)
    (hi : Ingress e) (pc : e.dispatcher = .pushing k i targets req items)
    (next : (e.workers i).queue.next .produce = some q) : q.producer ≠ .ret false := by
  intro hret
  have hspsc := hs.spsc i
  have hnot : (e.workers i).queue.producer ≠ .ret true := by
    intro hp
    simp [SpscQueue.State.next,SpscQueue.State.produce,hp] at next
  have hfull : 16384 ≤ (e.workers i).queue.contents.length := by
    rcases hspsc.refused next hret with ⟨_,_,-,hfull⟩ | ⟨items',t,hp,hlt⟩
    · exact hfull.ge
    · obtain ⟨ok,hok⟩ | hitems := hs.pushing k i targets req items pc
      · rw [hp] at hok
        cases hok
      · rw [hp] at hitems
        obtain rfl : items' = [req] := hitems
        simp only [List.length_singleton] at hlt
        omega
  have howed : 1 ≤ (e.owed i).length := by
    simp [State.owed,pc,hnot]
  have hlen : (e.pipeline i).length ≤ (routed i (won.map (·.2))).length := by
    rw [hs.pipeline_eq,hs.sent_eq h.kept,← h.tickets]
    obtain ⟨more,hmore⟩ := hi.isPrefix
    rw [← State.accepted,← hmore,routed_append,routed_append]
    simp only [List.length_append]
    omega
  have hroom := h.room i
  simp only [State.pipeline,List.length_append] at hlen
  omega

variable [DecidableEq κ]

theorem Winding.dispatch (h : Winding won e) (hs : Sends e) (hi : Ingress e)
    (hd : DispatchStep e e') (htickets : e'.queue.tickets = e.queue.tickets) :
    Winding won e' := by
  have hunref := h.unrefused
  cases hd with
  | test k pc =>
    have hr := h.running
    refine ⟨hr,h.calls,h.tickets,h.kept,?_,?_,?_,h.room⟩
    · simp [State.refused,hr]
    · intro k' d hpc
      simp [hr] at hpc
    · simp [hr]
  | loadHead k pc =>
    refine ⟨h.running,h.calls,h.tickets,h.kept,id,?_,?_,h.room⟩
    · intro k' d hpc
      obtain ⟨-,rfl⟩ : k = k' ∧ e.queue.dequeuePos = d := by simpa using hpc
      exact hi.inv.dequeuePos
    · intro hpc
      cases hpc
  | leave k d pc le =>
    refine ⟨h.running,h.calls,h.tickets,h.kept,id,?_,fun _ => ?_,h.room⟩
    · intro k' d' hpc
      cases hpc
    · have hd := h.head k d pc
      have hE : e.queue.enqueuePos = e.queue.tickets.length := hi.inv.enqueuePos
      have horder := hi.inv.order
      have hlen : e.queue.tickets.length = won.length := by rw [h.tickets]
      dsimp only
      omega
  | more k d pc lt | empty k batch pc ret | barrier k req items pc hid | handle k req items pc hid
  | done k req items pc | pushed k i targets req items pc ret =>
    exact h.goto rfl rfl rfl rfl id rfl fun _ => rfl
  | retry k i targets req items pc running => simp [State.refused,pc] at hunref
  | drop k i targets req items pc running => simp [State.refused,pc] at hunref
  | refused k i targets req items pc ret => simp [State.refused,pc,ret] at hunref
  | check c checking =>
    exact h.of_frame rfl h.calls rfl rfl rfl (fun _ => rfl) fun _ => List.prefix_refl _
  | call k batch q pc next => exact h.goto rfl rfl htickets rfl id rfl fun _ => rfl
  | access k batch b q pc next =>
    exact h.goto rfl rfl htickets rfl (by simp [State.refused,pc]) (by simp [Dispatcher.leaving,pc])
      fun _ => rfl
  | popped k pos req batch pc ret =>
    by_cases hb : (batch ++ [req]).length < kDispatchBatch <;>
      exact h.goto rfl rfl rfl rfl (by simp only [State.refused,hb,if_true,if_false]; exact id)
        (by simp only [hb,if_true,if_false]; rfl) fun _ => rfl
  | ask k i targets req items q pc next =>
    obtain rfl := SpscQueue.State.callProducer_eq next
    exact h.goto rfl rfl rfl rfl (by simp [State.refused,State.setQueue]) rfl
      (State.setQueue_processed i)
  | push k i targets req items q pc next =>
    have hok := h.unrefused_push hs hi pc next
    exact h.goto rfl rfl rfl rfl (by simpa [State.refused,State.setQueue,pc] using hok)
      (by simp [State.setQueue,Dispatcher.leaving,pc]) (State.setQueue_processed i)

theorem Winding.next {a : Act κ} (h : Winding won e) (hs : Sends e) (hi : Ingress e)
    (ha : ∀ c, a ≠ .start c .waitEngineDrained) (hn : e.next a = some e') : Winding won e' := by
  have hproc := State.next_processed hn
  have hcalls := State.next_calls hi hn
  have hset : ∀ {c : κ} {p : Call}, p.harmless = true →
      ∀ c', ((e.setCall c p).calls c').harmless = true := by
    intro c p hp c'
    by_cases hc : c' = c
    · rw [hc,State.setCall_calls_self]
      exact hp
    · rw [State.setCall_calls_of_ne hc]
      exact h.calls c'
  by_cases hdisp : ∃ b, a = .dispatch b
  · obtain ⟨b,rfl⟩ := hdisp
    have htickets : e'.queue.tickets = e.queue.tickets := by
      cases hcalls with
      | other _ _ _ _ tickets => exact tickets
    exact h.dispatch hs hi (State.dispatch_cases hn) htickets
  · obtain ⟨hd,-,hdropped,hq⟩ := State.next_frame hn fun b hb => hdisp ⟨b,hb⟩
    have hr := h.running
    suffices hother : e'.running = e.running ∧ (∀ c, (e'.calls c).harmless = true) ∧
        e'.queue = e.queue from
      h.of_frame hother.1 hother.2.1 hother.2.2 hd hdropped (fun i => (hq i).2) hproc
    cases a with
    | dispatch b => exact absurd ⟨b,rfl⟩ hdisp
    | start c f =>
      simp only [State.next,State.start] at hn
      split at hn
      · cases f with
        | pollResult =>
          obtain ⟨q,-,rfl⟩ := Option.map_eq_some_iff.mp hn
          exact ⟨rfl,hset rfl,rfl⟩
        | waitEngineDrained => exact absurd rfl (ha c)
        | _ =>
          cases hn
          exact ⟨rfl,hset rfl,rfl⟩
      · cases hn
    | client c b =>
      have hc := h.calls c
      cases State.client_cases hn with
      | requestTest creq pc => exact ⟨rfl,hset (by simp [hr,Call.harmless]),rfl⟩
      | batchTest reqs pc => exact ⟨rfl,hset (by simp [hr,Call.harmless]),rfl⟩
      | checkOff enabled pc off | checkOn enabled pc on
      | resetExpectedSeq pc | resetGapCount pc | resetDupCount pc | resetLastSeqSeen pc
      | loadLastSeqSeen pc | loadGapCount lastSeq pc | loadDupCount lastSeq gap pc
      => exact ⟨rfl,hset rfl,rfl⟩
      | polled won' pc ret => exact ⟨rfl,hset rfl,rfl⟩
      | poll b' q pc next => exact ⟨rfl,h.calls,rfl⟩
      | access k b' q pc next =>
        obtain ⟨todo,pc⟩ | pc := pc <;> simp [pc,Call.harmless] at hc
      | testFlag creq pc | finish n pc | attempt req todo n pc | accepted todo n t data pc
      | full todo n data pc | reentered pc | enter pc | reset pc | signal k pc | signalled k t data pc
      | unsignalled k data pc | reached pc | waiting pc | stillRunning pc | stopped pc | leave pc =>
        simp [pc,Call.harmless] at hc
    | work i wr b =>
      obtain ⟨⟨sh,w⟩,-,rfl⟩ := Option.map_eq_some_iff.mp hn
      exact ⟨rfl,h.calls,rfl⟩
    | stop =>
      cases State.stop_cases hn with
      | requestStop pc => exact ⟨hr.symm,h.calls,rfl⟩
      | _ => exact ⟨rfl,h.calls,rfl⟩

/-- `StopEngine` loses nothing where it is called with no call under way that may still
bring a request in, no drain is begun after it, the dispatcher has no refused request in
its hand, and no worker has more than 16384 requests left. -/
theorem graceful_stop {s : State κ} {as : List (Act κ)} (h : system.Reachable s)
    (hstop : s.stop = .notCalled) (hcalls : ∀ c, (s.calls c).harmless = true) (href : ¬s.refused)
    (hroom : ∀ i, (s.pending i).length ≤ 16384) (hrun : system.Run s (.stop :: as) e)
    (has : ∀ a ∈ as, ∀ c, a ≠ .start c .waitEngineDrained) (hret : e.stop = .returned) :
    e.accepted = s.accepted ∧ ∀ i, (e.workers i).processed = routed i s.accepted := by
  have he := h.run hrun
  obtain ⟨hi,hs⟩ := reachable_flow h
  have hr := (reachable_stopping h).running.mpr hstop
  cases hrun with
  | @cons _ t _ _ _ hn hrun =>
    have ht : t = { s with running := false, stop := .joinDispatcher } := by
      have hn' : s.stopEngine = some t := hn
      simpa [State.stopEngine,hstop,eq_comm] using hn'
    have hleave : s.dispatcher.leaving = false := by
      by_contra hl
      have := (reachable_stopping h).leaving (by simpa using hl)
      rw [hr] at this
      cases this
    have hwind : Winding s.queue.tickets t := by
      rw [ht]
      refine ⟨rfl,hcalls,rfl,hs.kept hr,href,?_,?_,fun i => ?_⟩
      · intro k d hpc
        rw [show s.dispatcher = .loadEnqueuePos k d from hpc] at hleave
        cases hleave
      · intro hpc
        rw [show s.dispatcher = .exited from hpc] at hleave
        cases hleave
      · have hlen := congrArg List.length (hs.processed_pending hi hr i)
        have := hroom i
        rw [List.length_append,State.accepted] at hlen
        dsimp only
        omega
    have hend : Winding s.queue.tickets e := (h.step hn).invariant_along
      (P := fun _ a => ∀ c, a ≠ .start c .waitEngineDrained)
      (fun _ _ _ hu hw ha hv => hw.next (reachable_flow hu).2 (reachable_flow hu).1 ha hv)
      hrun (System.along_of_forall fun a ha _ => has a ha) hwind
    have hacc : e.accepted = s.accepted := congrArg (List.map _) hend.tickets
    have hexit : e.dispatcher = .exited := (reachable_stopping he).joined (by rw [hret]; rfl)
    obtain ⟨hi',hs'⟩ := reachable_flow he
    refine ⟨hacc,fun i => ?_⟩
    rw [← hacc]
    refine (lossless_iff hi' hs' hexit ((reachable_stopping he).processed_eq hs' hret)).mpr
      ⟨hend.kept,?_⟩ i
    rw [hend.exited hexit,hend.tickets]

theorem graceful_stop_three : stopStart.accepted = threeRequests ∧ stopEnd.accepted = stopStart.accepted ∧
    ∀ i, (stopEnd.workers i).processed = routed i stopStart.accepted := by
  have hloop : stopStart.dispatcher = .loop 0 [] := by decide +kernel
  have hrest : ∀ a ∈ stopRest, ∀ c, a ≠ .start c .waitEngineDrained := by
    rintro a ha c rfl
    simp [stopRest] at ha
  exact ⟨by decide +kernel,graceful_stop stopStart_reachable (by decide +kernel) (by decide +kernel)
    (by simp [State.refused,hloop]) (by decide +kernel) stopEnd_run hrest (by decide +kernel)⟩

end Winding
end Flashsale.CoreEngine
