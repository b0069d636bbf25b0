import Flashsale.EndToEnd
import Mathlib
set_option autoImplicit false

namespace Flashsale.Engine
open Transition
variable {κ : Type}

section Worker
variable {w w' : Worker} {sh sh' : Shared κ}

/-- `Loop` leaves by its second look at the queue, and only once `running_` is false. -/
structure LoopOk (w : Worker) : Prop where
  spsc : SpscQueue.Inv 16384 w.queue
  asks : w.queue.consumer.Asks kBatchSize
  leaving : w.pc = .dequeue true ∨ w.pc = .exited → w.running = false
  drained : (w.pc = .dequeue true ∧ w.queue.consumer = .ret []) ∨ w.pc = .exited →
    w.queue.delivered.length = w.queue.accepted.length

theorem LoopOk.of_pc (h : LoopOk w) (hq : w'.queue = w.queue)
    (hd : w'.pc ≠ .dequeue true) (hx : w'.pc ≠ .exited) : LoopOk w' where
  spsc := hq ▸ h.spsc
  asks := hq ▸ h.asks
  leaving hl := by
    rcases hl with hl | hl
    · exact absurd hl hd
    · exact absurd hl hx
  drained hl := by
    rcases hl with ⟨hl,-⟩ | hl
    · exact absurd hl hd
    · exact absurd hl hx

theorem LoopOk.call {q : SpscQueue.State Request} {recheck : Bool} (h : LoopOk w)
    (hn : w.queue.next (.tryDequeueBatch kBatchSize) = some q)
    (hr : recheck = true → w.running = false) :
    LoopOk { w with queue := q, pc := .dequeue recheck } := by
  have hspsc := h.spsc.next hn
  obtain rfl := SpscQueue.State.callConsumer_eq hn
  refine ⟨hspsc,rfl,fun hl => ?_,fun hl => ?_⟩
  · rcases hl with hl | hl
    · cases hl; exact hr rfl
    · cases hl
  · rcases hl with ⟨-,hl⟩ | hl <;> cases hl

variable [DecidableEq κ] {i : ShardId} {inp : WorkerInput}

theorem LoopOk.step (h : LoopOk w) (hs : w.step sh i inp = some (sh',w')) :
    LoopOk w' ∧ w'.running = w.running ∧ w.pc ≠ .exited := by
  cases Worker.step_cases hs with
  | ask recheck pc running next =>
    exact ⟨h.call next running,rfl,by rw [pc]; cases recheck <;> simp⟩
  | empty recheck pc ret =>
    refine ⟨?_,rfl,by simp [pc]⟩
    cases recheck with
    | false => exact h.of_pc rfl (by simp) (by simp)
    | true => exact ⟨h.spsc,h.asks,fun _ => h.leaving (.inl pc),fun _ => h.drained (.inl ⟨pc,ret⟩)⟩
  | consume recheck pc _ next =>
    have hspsc := h.spsc.next next
    refine ⟨⟨hspsc,h.asks.consume next,by simpa only [pc] using h.leaving,fun hl => ?_⟩,rfl,
      by simp [pc]⟩
    rcases hl with ⟨-,hret⟩ | hl
    · exact h.spsc.empty_of_returned h.asks (by decide) next hret
    · cases hl
  | process pc step =>
    obtain ⟨hq,hr,-,-,hne,hx,-⟩ := step.frame
    exact ⟨h.of_pc hq (hne true) hx,hr,by simp [pc]⟩
  | @flag req res items count pc =>
    obtain ⟨wal,hwal⟩ := w.journal_eq req res inp.systemNow
    rw [hwal]
    exact ⟨h.of_pc rfl (by simp) (by simp),rfl,by simp [pc]⟩
  | publish pc _ => exact ⟨h,rfl,by simp [pc]⟩
  | taken _ pc _ _ | again pc _ | busy pc | idle pc | offer pc _ | published pc _ | refused pc _
  | addCount pc => exact ⟨h.of_pc rfl (by simp) (by simp),rfl,by simp [pc]⟩

end Worker

def Stop.joined : Stop → Nat → Prop
  | .notCalled, _ => False
  | .joinDispatcher k, i => i < k
  | .stopWorker _, _ | .joinWorker _, _ | .returned, _ => True

def Stop.stopped : Stop → Nat → Prop
  | .notCalled, _ | .joinDispatcher _, _ => False
  | .stopWorker k, i => i < k
  | .joinWorker k, i => i ≤ k
  | .returned, _ => True

def Stop.left : Stop → Nat → Prop
  | .notCalled, _ | .joinDispatcher _, _ => False
  | .stopWorker k, i | .joinWorker k, i => i < k
  | .returned, _ => True

theorem Stop.joined_of_stopped {st : Stop} {i : Nat} (h : st.stopped i) : st.joined i := by
  cases st <;> simp_all [Stop.stopped,Stop.joined]

structure Stopping (e : State κ) (i : ShardId) : Prop where
  loop : LoopOk (e.shards i).worker
  joined : e.stop.joined i → (e.shards i).dispatcher = .exited
  stopped : (e.shards i).worker.running = false → e.stop.stopped i
  left : e.stop.left i → (e.shards i).worker.pc = .exited

theorem initEngine_stopping (sold enq deq barrier : UInt64) (i : ShardId) :
    Stopping (initEngine sold enq deq barrier : State κ) i where
  loop := ⟨SpscQueue.create_inv _,trivial,by simp [initEngine,startShard,startWorker],
    by simp [initEngine,startShard,startWorker]⟩
  joined := by simp [initEngine,Stop.joined]
  stopped := by simp [initEngine,startShard,startWorker]
  left := by simp [initEngine,Stop.left]

/-- What is known of every state of a session. -/
def Session (e : State κ) : Prop := ∀ i, Fifo (e.shards i) ∧ Stopping e i

theorem initEngine_session (sold enq deq barrier : UInt64) :
    Session (initEngine sold enq deq barrier : State κ) :=
  fun i => ⟨startShard_fifo,initEngine_stopping sold enq deq barrier i⟩

section Returned
variable {e : State κ}

/-- Every accepted request was handed to `Process`, once and in its turn, and
the queues of the shard are empty. -/
structure Lossless (e : State κ) (i : ShardId) : Prop where
  processed : payloads (e.shards i).worker.processed = payloads (e.shards i).accepted
  reported : ∀ purpose c k req t,
    (e.shards i).queue.pc (.client purpose c k) = .enqReturn req (some t) →
    (payloads (e.shards i).worker.processed)[t]? = some req.payload
  ingress : (e.shards i).queue.dequeuePos = (e.shards i).queue.enqueuePos
  spsc : (e.shards i).worker.queue.contents = []

theorem Session.lossless_iff (h : Session e) (hret : e.stop = .returned) (i : ShardId) :
    Lossless e i ↔ (e.shards i).queue.takers.length = (e.shards i).queue.tickets.length := by
  obtain ⟨hf,hs⟩ := h i
  refine ⟨fun hl => hf.positions.mp hl.ingress,fun hlen => ?_⟩
  have hd : (e.shards i).dispatcher = .exited := hs.joined (by simp [hret,Stop.joined])
  have hx : (e.shards i).worker.pc = .exited := hs.left (by simp [hret,Stop.left])
  have hcont : (e.shards i).worker.queue.contents = [] := by
    have hdr := hs.loop.drained (.inr hx)
    have hsz := hs.loop.spsc.contents_length
    exact List.eq_nil_of_length_eq_zero (by omega)
  have hproc : payloads (e.shards i).worker.processed = payloads (e.shards i).accepted := by
    have hpipe := hf.pipeline
    have hdrop : (e.shards i).accepted.drop (e.shards i).queue.takers.length = [] := by
      rw [hlen]
      simp [Shard.accepted]
    rw [hdrop,hcont] at hpipe
    simpa [Shard.hand,hd,Worker.batchBuffer,hx,Loop.items] using hpipe
  refine ⟨hproc,fun purpose c k req t hc => ?_,hf.positions.mpr hlen,hcont⟩
  rw [hproc]
  exact Shard.payload_of_ticket (hf.ingress.recorded_enqueue (by rw [hc]; rfl))

end Returned

section Steps
variable [DecidableEq κ] {e e' : State κ} {i : ShardId} {a : Act κ} {s' : Shard κ}

theorem ShardStep.exited (hs : ShardStep e i a s') (hf : Fifo (e.shards i))
    (hd : (e.shards i).dispatcher = .exited) :
    s'.dispatcher = .exited ∧ s'.queue.takers = (e.shards i).queue.takers := by
  cases hs with
  | enqueue _ _ _ _ hn =>
    obtain ⟨-,rfl⟩ := MpmcQueue.State.call_eq hn
    exact ⟨hd,rfl⟩
  | attempt _ _ _ _ hn =>
    refine ⟨hd,?_⟩
    cases (MpmcQueue.State.step_effect hn).2.2 with
    | quiet ht htk hw => exact htk
    | won data hi ht htk => exact htk
    | took hdeq hb haf ht htk =>
      obtain ⟨k,hk⟩ := hf.consumers _ hdeq
      cases hk
  | work _ => exact ⟨hd,rfl⟩
  | stop _ => exact ⟨hd,rfl⟩
  | call _ _ _ hd' | leave _ _ _ hd' | empty _ _ _ hd' | pop _ _ _ hd' | dequeue _ _ _ hd' | pushed _ _ _ hd'
  | retry _ _ _ hd' | push _ _ _ hd' =>
    rw [hd] at hd'
    cases hd'

theorem Stopping.loop_step (h : Stopping e i) (hs : ShardStep e i a s') :
    LoopOk s'.worker ∧
      (s'.worker.running = false →
        (e.shards i).worker.running = false ∨ a = .stop ∧ e.stop = .stopWorker i) ∧
      ((e.shards i).worker.pc = .exited → s'.worker.pc = .exited) := by
  have hl := h.loop
  -- a dispatcher at work means that no worker was told to stop
  have hrun : ∀ {d}, (e.shards i).dispatcher = d → d ≠ .exited →
      ¬((e.shards i).worker.running = false) :=
    fun hd hne hr => hne (hd.symm.trans (h.joined (Stop.joined_of_stopped (h.stopped hr))))
  cases hs with
  | work hn =>
    obtain ⟨hl',hr,hx⟩ := hl.step hn
    exact ⟨hl',fun h => .inl (hr ▸ h),fun h => absurd h hx⟩
  | stop hs => exact ⟨⟨hl.spsc,hl.asks,fun _ => rfl,hl.drained⟩,fun _ => .inr ⟨rfl,hs⟩,id⟩
  | pop _ _ _ _ _ _ hn | retry _ _ _ _ _ hn =>
    have hspsc := hl.spsc.next hn
    obtain rfl := SpscQueue.State.callProducer_eq hn
    exact ⟨⟨hspsc,hl.asks,hl.leaving,hl.drained⟩,.inl,id⟩
  | push _ _ _ hd hn =>
    obtain ⟨⟨-,hcons⟩,-⟩ := SpscQueue.State.produce_cases hn
    refine ⟨⟨hl.spsc.next hn,by rw [hcons]; exact hl.asks,hl.leaving,fun hdr => ?_⟩,.inl,id⟩
    exact absurd (hl.leaving (hdr.imp And.left id)) (hrun hd (by simp))
  | _ => exact ⟨hl,.inl,id⟩

theorem Stopping.shard (h : Stopping e i) (hf : Fifo (e.shards i))
    (hs : e'.shards i = e.shards i ∨ ShardStep e i a (e'.shards i)) :
    LoopOk (e'.shards i).worker ∧
      ((e'.shards i).worker.running = false →
        (e.shards i).worker.running = false ∨ a = .stop ∧ e.stop = .stopWorker i) ∧
      ((e.shards i).worker.pc = .exited → (e'.shards i).worker.pc = .exited) ∧
      ((e.shards i).dispatcher = .exited → (e'.shards i).dispatcher = .exited) := by
  rcases hs with hs | hs
  · rw [hs]
    exact ⟨h.loop,.inl,id,id⟩
  · obtain ⟨hl,hr,hx⟩ := h.loop_step hs
    exact ⟨hl,hr,hx,fun hd => (hs.exited hf hd).1⟩

theorem State.next_stop (hn : e.next a = some e') (ha : a ≠ .stop) : e'.stop = e.stop := by
  by_cases hw : ∃ i inp, a = .work i inp
  · obtain ⟨i,inp,rfl⟩ := hw
    obtain ⟨⟨sh,w⟩,-,rfl⟩ := Option.map_eq_some_iff.mp hn
    rfl
  · exact (State.next_frame hn ha fun i inp h => hw ⟨i,inp,h⟩).1

theorem Stopping.next (h : Stopping e i) (hf : Fifo (e.shards i))
    (hn : e.next a = some e') : Stopping e' i := by
  obtain ⟨hl,hr,hx,hd⟩ := h.shard hf (State.next_shard hn i)
  have hlt := i.isLt
  by_cases ha : a = .stop
  · subst ha
    have hn' : e.stopEngine = some e' := hn
    unfold State.stopEngine at hn'
    cases hst : e.stop with
    | notCalled =>
      simp only [hst,Option.some.injEq] at hn'
      subst hn'
      have hrun := h.stopped
      rw [hst] at hrun
      exact ⟨hl,fun hj => absurd hj (Nat.not_lt_zero _),hrun,False.elim⟩
    | joinDispatcher k =>
      have hjoin := h.joined
      have hrun := h.stopped
      rw [hst] at hjoin hrun
      simp only [hst] at hn'
      split at hn'
      · rename_i hk
        split at hn'
        · rename_i hexit
          cases hn'
          refine ⟨hl,fun hj => ?_,hrun,False.elim⟩
          rcases Nat.lt_succ_iff_lt_or_eq.mp hj with hj | hj
          · exact hjoin hj
          · exact (show i = ⟨k,hk⟩ from Fin.ext hj) ▸ hexit
        · cases hn'
      · cases hn'
        exact ⟨hl,fun _ => hjoin (show (i : Nat) < k by omega),fun hr => (hrun hr).elim,
          fun hleft => absurd hleft (Nat.not_lt_zero _)⟩
    | stopWorker k =>
      have hjoin := h.joined
      have hrun := h.stopped
      have hleft := h.left
      rw [hst] at hjoin hrun hleft
      simp only [hst] at hn'
      split at hn'
      · rename_i hk
        cases hn'
        refine ⟨hl,fun _ => hd (hjoin trivial),fun hr' => ?_,fun hlf => hx (hleft hlf)⟩
        rcases hr hr' with hr' | ⟨-,hs⟩
        · exact Nat.le_of_lt (hrun hr')
        · rw [hst] at hs
          cases hs
          exact Nat.le_refl _
      · cases hn'
        exact ⟨hl,fun _ => hjoin trivial,fun _ => trivial,
          fun _ => hleft (show (i : Nat) < k by omega)⟩
    | joinWorker k =>
      have hjoin := h.joined
      have hrun := h.stopped
      have hleft := h.left
      rw [hst] at hjoin hrun hleft
      simp only [hst] at hn'
      split at hn'
      · rename_i hk
        split at hn'
        · rename_i hexit
          cases hn'
          refine ⟨hl,fun _ => hjoin trivial,fun hr' => Nat.lt_succ_of_le (hrun hr'),fun hlf => ?_⟩
          rcases Nat.lt_succ_iff_lt_or_eq.mp hlf with hlf | hlf
          · exact hleft hlf
          · exact (show i = ⟨k,hk⟩ from Fin.ext hlf) ▸ hexit
        · cases hn'
      · cases hn'
    | returned => simp [hst] at hn'
  · have hst := State.next_stop hn ha
    refine ⟨hl,fun hj => hd (h.joined (hst ▸ hj)),fun hr' => ?_,fun hlf => hx (h.left (hst ▸ hlf))⟩
    rw [hst]
    rcases hr hr' with hr' | ⟨hs,-⟩
    · exact h.stopped hr'
    · exact absurd hs ha

theorem Session.next (h : Session e) (hn : e.next a = some e') : Session e' := by
  intro i
  refine ⟨?_,(h i).2.next (h i).1 hn⟩
  rcases State.next_shard hn i with hs | hs
  · rw [hs]; exact (h i).1
  · exact (h i).1.step hs

def Wins (e : State κ) (a : Act κ) (i : ShardId) : Prop :=
  ∃ c now p req todo data, a = .client c now false ∧ e.calls c = .enqueuing p ∧
    p.todo = (i,req) :: todo ∧
    (e.shards i).queue.pc (p.caller c) = .enqCas data (e.shards i).queue.enqueuePos

/-- A dispatcher that reads `running` false finds its ingress queue empty, and
nothing is accepted into a queue whose dispatcher has left. -/
def LeavesEmpty (e : State κ) (a : Act κ) : Prop :=
  (∀ i k pop push spurious, a = .dispatch i pop push spurious → (e.shards i).dispatcher = .loop k →
    e.running = false → (e.shards i).queue.dequeuePos = (e.shards i).queue.enqueuePos) ∧
  ∀ i, (e.shards i).dispatcher = .exited → ¬Wins e a i

/-- The queues without a dispatcher are empty. -/
def Emptied (e : State κ) : Prop :=
  ∀ i, (e.shards i).dispatcher = .exited →
    (e.shards i).queue.takers.length = (e.shards i).queue.tickets.length

theorem ShardStep.tickets_cases (hs : ShardStep e i a s')
    (hx : (e.shards i).dispatcher = .exited) :
    s'.queue.tickets = (e.shards i).queue.tickets ∨ Wins e a i := by
  cases hs with
  | enqueue _ _ _ _ hn =>
    obtain ⟨-,rfl⟩ := MpmcQueue.State.call_eq hn
    exact .inl rfl
  | @attempt c p req todo q now spurious hc ht hn =>
    by_cases he : q.tickets = (e.shards i).queue.tickets
    · exact .inl he
    · obtain ⟨data,hp,rfl⟩ := MpmcQueue.State.step_won hn he
      exact .inr ⟨c,now,p,req,todo,data,rfl,hc,ht,hp⟩
  | call _ _ _ hd | dequeue _ _ _ hd =>
    rw [hx] at hd
    cases hd
  | _ => exact .inl rfl

theorem Wins.tickets_length (hw : Wins e a i) (hn : e.next a = some e') :
    (e'.shards i).queue.tickets.length = (e.shards i).queue.tickets.length + 1 := by
  obtain ⟨c,now,p,req,todo,data,rfl,hc,ht,hp⟩ := hw
  have hn' : e.client c now false = some e' := hn
  simp only [State.client,hc,ht,hp,MpmcQueue.State.next,MpmcQueue.State.step_cas hp,
    Option.map_some,Option.some.injEq] at hn'
  subst hn'
  simp [MpmcQueue.State.winEnqueue,MpmcQueue.State.goto]

theorem ShardStep.leaves (hs : ShardStep e i a s') (hx : (e.shards i).dispatcher ≠ .exited)
    (hx' : s'.dispatcher = .exited) :
    ∃ k pop push spurious, a = .dispatch i pop push spurious ∧ (e.shards i).dispatcher = .loop k ∧
      e.running = false ∧ s'.queue = (e.shards i).queue := by
  cases hs with
  | leave pop push spurious hd hr => exact ⟨_,pop,push,spurious,rfl,hd,hr,rfl⟩
  | call | empty | pop | pushed => cases hx'
  | _ => exact absurd hx' hx

theorem Emptied.of_leavesEmpty (h : Session e) (he : Emptied e) (hn : e.next a = some e')
    (hl : LeavesEmpty e a) : Emptied e' := by
  intro i hx'
  rcases State.next_shard hn i with hs | hs
  · rw [hs] at hx' ⊢
    exact he i hx'
  · by_cases hx : (e.shards i).dispatcher = .exited
    · rw [(hs.exited (h i).1 hx).2]
      rcases hs.tickets_cases hx with ht | hw
      · rw [ht]
        exact he i hx
      · exact absurd hw (hl.2 i hx)
    · obtain ⟨k,pop,push,spurious,rfl,hd,hr,hq⟩ := hs.leaves hx hx'
      rw [hq]
      exact (h i).1.positions.mp (hl.1 i k pop push spurious rfl hd hr)

theorem LeavesEmpty.of_emptied (h : Session e) (he : Emptied e) (hn : e.next a = some e')
    (he' : Emptied e') : LeavesEmpty e a := by
  refine ⟨fun i k pop push spurious ha hd hr => ?_,fun i hx hw => ?_⟩
  · subst ha
    have hn' : e.dispatch i pop push spurious = some e' := hn
    simp only [State.dispatch,hd,hr,Bool.false_eq_true,if_false,Option.some.injEq] at hn'
    subst hn'
    have := he' i (by simp)
    simp only [State.setShard_shards_self] at this
    exact (h i).1.positions.mpr this
  · have hlen := hw.tickets_length hn
    have hbefore := he i hx
    rcases State.next_shard hn i with hs | hs
    · rw [hs] at hlen
      omega
    · obtain ⟨hx',htk⟩ := hs.exited (h i).1 hx
      have hafter := he' i hx'
      rw [htk] at hafter
      omega

theorem Emptied.of_next (h : Session e) (hn : e.next a = some e') (he' : Emptied e') :
    Emptied e := by
  intro i hx
  rcases State.next_shard hn i with hs | hs
  · have := he' i (by rw [hs]; exact hx)
    rwa [hs] at this
  · obtain ⟨hx',htk⟩ := hs.exited (h i).1 hx
    have hafter := he' i hx'
    have hlen := hs.tickets.length_le
    have horder := (h i).1.ingress.order
    rw [htk] at hafter
    omega

/-- `StopEngine` loses nothing exactly when each dispatcher left an empty queue. -/
theorem stop_lossless_iff {sold enq deq barrier : UInt64} {as : List (Act κ)}
    (hr : system.Run (initEngine sold enq deq barrier) as e) (hret : e.stop = .returned) :
    (∀ i, Lossless e i) ↔ system.Along LeavesEmpty (initEngine sold enq deq barrier) as := by
  have hinit := initEngine_session (κ := κ) sold enq deq barrier
  have hsession : Session e := hr.invariant (fun _ _ _ h hn => h.next hn) hinit
  have hlast : (∀ i, Lossless e i) ↔ Emptied e := by
    constructor
    · exact fun hl i _ => (hsession.lossless_iff hret i).mp (hl i)
    · intro he i
      refine (hsession.lossless_iff hret i).mpr (he i ?_)
      exact (hsession i).2.joined (by simp [hret,Stop.joined])
  rw [hlast]
  have hstart : Emptied (initEngine sold enq deq barrier : State κ) := fun i hx => by cases hx
  have hiff := System.along_iff_throughout (I := Emptied) (J := fun e => Session e ∧ Emptied e)
    (P := LeavesEmpty) (fun _ h => h.2)
    (fun _ _ _ h hl hn => ⟨h.1.next hn,h.2.of_leavesEmpty h.1 hn hl⟩)
    (fun _ _ _ h hn he => .of_emptied h.1 h.2 hn he) hr ⟨hinit,hstart⟩
  rw [hiff]
  exact ⟨fun he => hr.throughout_of_last (fun _ _ _ h hn => h.next hn)
    (fun _ _ _ h hn he => he.of_next h hn) hinit he,fun ht => ht.last hr⟩

end Steps

def soldRun : List (Act Unit) :=
  .start () (.enqueueRequest (saleRequest 5)) :: List.replicate 11 (.client () 1 false)

def stopRun : List (Act Unit) :=
  [.stop,.dispatch 0 2 3 false,.dispatch 1 2 3 false] ++ List.replicate 4 .stop ++
    List.replicate 8 (.work 0 default) ++ [.stop,.stop] ++ List.replicate 8 (.work 1 default) ++
    [.stop,.stop]

def soldState : State Unit := (system.exec (initEngine 0 0 0 0) soldRun).get (by decide +kernel)

def stoppedState : State Unit := (system.exec soldState stopRun).get (by decide +kernel)

theorem soldState_run : system.Run (initEngine 0 0 0 0) soldRun soldState :=
  System.run_of_exec (Option.some_get _).symm

theorem stoppedState_run : system.Run soldState stopRun stoppedState :=
  System.run_of_exec (Option.some_get _).symm

theorem stop_lossless_iff_sold :
    ¬system.Along LeavesEmpty (initEngine 0 0 0 0) (soldRun ++ stopRun) := by
  intro h
  have hl := (stop_lossless_iff (soldState_run.append stoppedState_run) (by decide +kernel)).mpr h 1
  exact absurd hl.ingress (by decide +kernel)

/-- No call is in progress when `StopEngine` is called, and none starts after it;
it returns, and the request reported as accepted is still in the ingress queue. -/
theorem stop_loses_accepted :
    system.Run (initEngine 0 0 0 0) soldRun soldState ∧ soldState.stop = .notCalled ∧
    (∀ c, soldState.calls c = .ret 1) ∧ system.Run soldState stopRun stoppedState ∧
    (∀ a ∈ stopRun, a.requests = []) ∧ stoppedState.stop = .returned ∧
    (soldState.shards 1).queue.pc (.client .once () 0) =
      .enqReturn { saleRequest 5 with tsIngress := 1 } (some 0) ∧
    (stoppedState.shards 1).worker.processed = [] ∧
    (stoppedState.shards 1).queue.dequeuePos ≠ (stoppedState.shards 1).queue.enqueuePos :=
  ⟨soldState_run,by decide +kernel,fun _ => rfl,stoppedState_run,by decide +kernel,
    by decide +kernel,by decide +kernel,by decide +kernel,by decide +kernel⟩

end Flashsale.Engine
