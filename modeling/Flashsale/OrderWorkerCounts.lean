import Flashsale.OrderWorkerSteps
import Mathlib
set_option autoImplicit false

namespace Flashsale.OrderWorker
open Transition
variable {p c perProducer queueCap n : Nat} {s s' : State p c}

/-- A worker that has exited, or is about to, has seen every ticket taken. -/
def State.Drained (s : State p c) : Prop :=
  ∀ w, (s.workers w = .exited ∨
      ∃ k, s.workers w = .dequeuing k true ∧ s.queue.pc (.worker w k) = .deqReturn none) →
    s.queue.takers.length = s.queue.tickets.length

theorem Roles.refused {w : Fin (c+1)} {k : Nat} {spurious : Bool}
    {q : MpmcQueue.State Nat OrderIntent (Caller p c)} (h : Roles n s)
    (hdone : ∀ i, s.producers i = .done) (hn : s.queue.step (.worker w k) spurious = some q)
    (hr : q.pc (.worker w k) = .deqReturn none) :
    s.queue.takers.length = s.queue.tickets.length := by
  have hnot : (s.queue.pc (.worker w k)).refused = false := by
    cases hpc : s.queue.pc (.worker w k) with
    | enqReturn data won | deqReturn won => simp [MpmcQueue.State.step,hpc] at hn
    | _ => rfl
  have hnext : s.queue.next (.step (.worker w k) spurious) = some q := hn
  have hrefused : (q.pc (.worker w k)).refused := by simp [hr,MpmcQueue.Pc.refused]
  obtain ⟨b,-,hcases⟩ := MpmcQueue.State.next_refused hnext hnot hrefused
  rcases hcases with ⟨data,pos,-,hpc,-⟩ | ⟨pos,hpc,-,hneg⟩
  · simp [hr] at hpc
  · have hinv := h.queue.inv
    have hle : pos ≤ s.queue.takers.length := by
      simpa [MpmcQueue.PcOk,hpc] using hinv.pcs (.worker w k)
    have hseq := hinv.sequence pos
    simp only [SizeT.val_nat] at hseq
    have hbehind : s.queue.seqAt n pos < pos + 1 := by
      rw [hseq] at hneg
      change (s.queue.seqAt n pos : Int) - (pos + 1 : Nat) < 0 at hneg
      omega
    obtain ⟨rfl,hpub⟩ := hinv.behind_dequeue h.queue.marks h.queue.takers hle hbehind
    have hidle : ∀ x, (s.queue.pc x).item.isSome → (s.queue.pc x).ret.isSome := by
      intro x hx
      obtain ⟨data,hdata⟩ := Option.isSome_iff_exists.mp hx
      obtain ⟨i,j,rfl⟩ := h.queue.carries x data hdata
      refine (h.producing i j hx).resolve_right ?_
      simp [hdone i]
    have hempty := hinv.empty_of_unpublished hidle hpub
    have horder := hinv.order
    simp only [MpmcQueue.State.stored,List.map_eq_nil_iff,List.drop_eq_nil_iff] at hempty
    omega

theorem Roles.drained {i : Fin p} (hr : Roles n s) (hs : ProducerStep perProducer s i s')
    (hw : s'.workers = s.workers) : s'.Drained := by
  intro w hpre
  -- a worker is never this far while a producer still takes steps
  have hlate : (s.workers w).late := by
    rw [← hw]
    rcases hpre with hx | ⟨k,hx,-⟩ <;> simp [hx,Worker.late]
  have hdone := hr.done (hr.late w hlate) i
  cases hs <;> simp_all

theorem taken_of_step {w : Fin (c+1)} {k : Nat} {spurious : Bool}
    {q : MpmcQueue.State Nat OrderIntent (Caller p c)} (h : Roles n s)
    (hpc : (s.queue.pc (.worker w k)).dequeuing)
    (hn : s.queue.step (.worker w k) spurious = some q)
    (ht : s.queue.takers.length = s.queue.tickets.length) :
    q.takers.length = q.tickets.length := by
  have hnext : s.queue.next (.step (.worker w k) spurious) = some q := hn
  have horder := (h.queue.inv.next trivial hnext).order
  cases (MpmcQueue.State.step_effect hn).2.2 with
  | quiet htk htr hd => rw [htk,htr,ht]
  | won data hi htk htr =>
    rw [MpmcQueue.Pc.item_eq_none_of_dequeuing hpc] at hi
    cases hi
  | took hdeq hb ha htk htr =>
    rw [htk,htr,List.length_append,List.length_singleton] at horder
    omega

theorem Drained.work {w : Fin (c+1)} (hr : Roles n s) (h : s.Drained) (hs : WorkerStep s w s') :
    s'.Drained := by
  -- outside the queue, only the step to `exited` makes anything new of it
  have hset : ∀ pc, (pc = .exited → ∃ k, s.workers w = .dequeuing k true ∧
      s.queue.pc (.worker w k) = .deqReturn none) → (∀ k recheck, pc ≠ .dequeuing k recheck) →
      (s.setWorker w pc).Drained := by
    intro pc hexit hnot v hpre
    by_cases hv : v = w
    · subst hv
      simp only [State.setWorker,Function.update_self] at hpre
      rcases hpre with hx | ⟨k,hx,-⟩
      · exact h v (.inr (hexit hx))
      · exact absurd hx (hnot k true)
    · exact h v (by simpa [State.setWorker,hv] using hpre)
  cases hs with
  | call k recheck pc idle =>
    intro v hpre
    by_cases hv : v = w
    · subst hv
      rcases hpre with hx | ⟨k',hx,hret⟩
      · simp [State.setWorker] at hx
      · obtain ⟨rfl,rfl⟩ : k = k' ∧ recheck = true := by simpa [State.setWorker] using hx
        simp [State.setWorker] at hret
    · refine h v ?_
      simpa [State.setWorker,MpmcQueue.State.goto,hv] using hpre
  | queue k recheck spurious q pc next =>
    have hdeq := hr.called w k recheck pc
    intro v hpre
    change q.takers.length = q.tickets.length
    refine taken_of_step hr hdeq next ?_
    have hold : (∃ k', s.workers v = .dequeuing k' true ∧ (v ≠ w ∨ k' ≠ k) ∧
        q.pc (.worker v k') = .deqReturn none) → s.queue.takers.length = s.queue.tickets.length := by
      rintro ⟨k',hx,hne,hret⟩
      refine h v (.inr ⟨k',hx,?_⟩)
      rw [← hret]
      refine (MpmcQueue.State.step_pc_of_ne next ?_).symm
      rcases hne with hne | hne <;> simp [hne]
    rcases hpre with hx | ⟨k',hx,hret⟩
    · exact h v (.inl hx)
    · by_cases hv : v = w ∧ k' = k
      · obtain ⟨rfl,rfl⟩ := hv
        refine hr.refused (hr.done (hr.late v ?_)) next hret
        simp only at hx
        simp [hx,Worker.late]
      · exact hold ⟨k',hx,by tauto,hret⟩
  | exit k pc ret => exact hset .exited (fun _ => ⟨k,pc,ret⟩) (by simp)
  | got k recheck pos intent pc ret => exact hset _ (by simp) (by simp)
  | empty k pc ret => exact hset _ (by simp) (by simp)
  | test k pc => exact hset _ (by simp) (by simp)
  | known k intent pc seen => exact hset _ (by simp) (by simp)
  | count k intent pc => exact hset (.mark k intent) (by simp) (by simp)
  | mark k intent pc fresh => exact hset (.write k intent) (by simp) (by simp)
  | dup k pc | write k intent pc => exact hset (.tryDequeue (k+1) false) (by simp) (by simp)

theorem reachable_drained (h : (system p c perProducer queueCap).Reachable s) : s.Drained := by
  have hstep : ∀ s a s', (system p c perProducer queueCap).Reachable s → State.Drained s →
      (system p c perProducer queueCap).next s a = some s' → s'.Drained := by
    intro s a s' hs hd hn
    have hr := reachable_roles hs
    cases a with
    | produce i draw spurious =>
      have hp := State.produce_cases hn
      exact hr.drained hp (by cases hp <;> rfl)
    | work w spurious => exact Drained.work hr hd (State.work_cases hn)
    | main =>
      have hm := State.main_cases hn
      cases hm <;> exact hd
  obtain ⟨s₀,as,hi,hrun⟩ := h
  refine (System.Reachable.of_init hi).invariant_run hstep hrun ?_
  obtain ⟨q,hq,rfl⟩ := hi
  intro w hpre
  simp [start] at hpre

def Producer.inTurn : Producer → Nat
  | .loop _ | .done => 0
  | _ => 1

/-- A ticket that its producer has not counted yet. -/
def State.ticketed (s : State p c) (i : Fin p) : Nat :=
  match s.producers i with
  | .enqueuing k => if (s.queue.pc (.producer i k)).enqueued.isSome then 1 else 0
  | .count _ true => 1
  | _ => 0

/-- A ticket that its worker has taken and not counted yet. -/
def State.carrying (s : State p c) (w : Fin (c+1)) : Nat :=
  match s.workers w with
  | .dequeuing k _ => if (s.queue.pc (.worker w k)).dequeued.isSome then 1 else 0
  | .count _ _ => 1
  | _ => 0

def Worker.unmarked : Worker → Nat
  | .mark _ _ | .dup _ => 1
  | _ => 0

structure Turns (s : State p c) (produced accepted rejected : Nat) : Prop where
  producedTotal : s.producedTotal = .ofNat produced
  acceptedTotal : s.acceptedTotal = .ofNat accepted
  rejectedFull : s.rejectedFull = .ofNat rejected
  turns : produced = accepted + rejected + ∑ i, (s.producers i).inTurn
  tickets : accepted + ∑ i, s.ticketed i = s.queue.tickets.length

structure Takes (s : State p c) (consumed dups : Nat) : Prop where
  consumedTotal : s.consumedTotal = .ofNat consumed
  idempotentDups : s.idempotentDups = .ofNat dups
  takers : consumed + ∑ w, s.carrying w = s.queue.takers.length
  marked : consumed = s.seen.length + dups + ∑ w, (s.workers w).unmarked

structure WorkersSame (s s' : State p c) : Prop where
  workers : s'.workers = s.workers
  takers : s'.queue.takers = s.queue.takers
  pc : ∀ w k, s'.queue.pc (.worker w k) = s.queue.pc (.worker w k)
  seen : s'.seen = s.seen
  written : s'.written = s.written
  consumedTotal : s'.consumedTotal = s.consumedTotal
  idempotentDups : s'.idempotentDups = s.idempotentDups

structure ProducersSame (s s' : State p c) : Prop where
  producers : s'.producers = s.producers
  tickets : s'.queue.tickets = s.queue.tickets
  pc : ∀ i k, s'.queue.pc (.producer i k) = s.queue.pc (.producer i k)
  producedTotal : s'.producedTotal = s.producedTotal
  acceptedTotal : s'.acceptedTotal = s.acceptedTotal
  rejectedFull : s'.rejectedFull = s.rejectedFull

theorem Roles.workersSame {i : Fin p} (hr : Roles n s) (hs : ProducerStep perProducer s i s') :
    WorkersSame s s' := by
  cases hs with
  | queue k spurious q pc next =>
    refine ⟨rfl,?_,fun w k' => MpmcQueue.State.step_pc_of_ne next (by simp),rfl,rfl,rfl,rfl⟩
    cases (MpmcQueue.State.step_effect next).2.2 with
    | quiet htk htr hd | won data hi htk htr => exact htr
    | took hdeq hb ha htk htr =>
      obtain ⟨w,k',hx⟩ := hr.queue.consumers _ hdeq
      cases hx
  | call k intent pc idle =>
    exact ⟨rfl,rfl,fun w k' => by simp [State.setProducer,MpmcQueue.State.goto],rfl,rfl,rfl,rfl⟩
  | _ => exact ⟨rfl,rfl,fun _ _ => rfl,rfl,rfl,rfl,rfl⟩

theorem Roles.producersSame {w : Fin (c+1)} (hr : Roles n s) (hs : WorkerStep s w s') :
    ProducersSame s s' := by
  cases hs with
  | queue k recheck spurious q pc next =>
    refine ⟨rfl,?_,fun i k' => MpmcQueue.State.step_pc_of_ne next (by simp),rfl,rfl,rfl⟩
    cases (MpmcQueue.State.step_effect next).2.2 with
    | quiet htk htr hd | took hdeq hb ha htk htr => exact htk
    | won data hi htk htr =>
      rw [MpmcQueue.Pc.item_eq_none_of_dequeuing (hr.called w k recheck pc)] at hi
      cases hi
  | call k recheck pc idle =>
    exact ⟨rfl,rfl,fun i k' => by simp [State.setWorker,MpmcQueue.State.goto],rfl,rfl,rfl⟩
  | _ => exact ⟨rfl,rfl,fun _ _ => rfl,rfl,rfl,rfl⟩

theorem Turns.frame {a b d : Nat} (h : Turns s a b d) (hs : ProducersSame s s') :
    Turns s' a b d where
  producedTotal := hs.producedTotal.trans h.producedTotal
  acceptedTotal := hs.acceptedTotal.trans h.acceptedTotal
  rejectedFull := hs.rejectedFull.trans h.rejectedFull
  turns := by simpa only [hs.producers] using h.turns
  tickets := by
    simpa only [State.ticketed,hs.producers,hs.pc,hs.tickets] using h.tickets

theorem Takes.frame {a b : Nat} (h : Takes s a b) (hs : WorkersSame s s') : Takes s' a b where
  consumedTotal := hs.consumedTotal.trans h.consumedTotal
  idempotentDups := hs.idempotentDups.trans h.idempotentDups
  takers := by simpa only [State.carrying,hs.workers,hs.pc,hs.takers] using h.takers
  marked := by simpa only [hs.workers,hs.seen] using h.marked

theorem count_succ {n : UInt64} {m : Nat} (h : n = .ofNat m) : n + 1 = .ofNat (m+1) := by
  rw [h,UInt64.ofNat_add]
  rfl

theorem Roles.ticketed_step {i : Fin p} {k : Nat} {spurious : Bool}
    {q : MpmcQueue.State Nat OrderIntent (Caller p c)} (hr : Roles n s)
    (pc : s.producers i = .enqueuing k)
    (next : s.queue.step (.producer i k) spurious = some q) :
    ({ s with queue := q } : State p c).ticketed i + s.queue.tickets.length =
      s.ticketed i + q.tickets.length := by
  have hq : s.queue.next (.step (.producer i k) spurious) = some q := next
  have hinv := hr.queue.inv
  have hinv' := hinv.next trivial hq
  simp only [State.ticketed,pc]
  cases (MpmcQueue.State.step_effect next).2.2 with
  | quiet htk htr hd =>
    have hsame : (q.pc (.producer i k)).enqueued.isSome =
        (s.queue.pc (.producer i k)).enqueued.isSome := by
      rw [Bool.eq_iff_iff,hinv.enqueued_iff,hinv'.enqueued_iff,htk]
    rw [hsame,htk]
  | won data hi htk htr =>
    have hbefore : (s.queue.pc (.producer i k)).enqueued.isSome = false := by
      rw [Bool.eq_false_iff]
      exact fun hs => hinv'.fresh_of_won htk (hinv.mem_tickets_iff.mpr hs)
    have hafter : (q.pc (.producer i k)).enqueued.isSome := by
      rw [hinv'.enqueued_iff,htk]
      exact ⟨data,by simp⟩
    simp [hbefore,hafter,htk,Nat.add_comm]
  | took hdeq hb ha htk htr =>
    obtain ⟨w,k',hx⟩ := hr.queue.consumers _ hdeq
    cases hx

theorem Roles.carrying_step {w : Fin (c+1)} {k : Nat} {recheck spurious : Bool}
    {q : MpmcQueue.State Nat OrderIntent (Caller p c)} (hr : Roles n s)
    (pc : s.workers w = .dequeuing k recheck)
    (next : s.queue.step (.worker w k) spurious = some q) :
    ({ s with queue := q } : State p c).carrying w + s.queue.takers.length =
      s.carrying w + q.takers.length := by
  simp only [State.carrying,pc]
  cases (MpmcQueue.State.step_effect next).2.2 with
  | quiet htk htr hd => rw [hd,htr]
  | took hdeq hb ha htk htr => simp [hb,ha,htr,Nat.add_comm]
  | won data hi htk htr =>
    rw [MpmcQueue.Pc.item_eq_none_of_dequeuing (hr.called w k recheck pc)] at hi
    cases hi

/-- The counts after a step of one producer, from what the step does to its own. -/
theorem Turns.step {i : Fin p} {a b d a' b' d' : Nat} (h : Turns s a b d)
    (hother : ∀ j, j ≠ i → s'.producers j = s.producers j)
    (hpc : ∀ j k, j ≠ i → s'.queue.pc (.producer j k) = s.queue.pc (.producer j k))
    (ha : s'.producedTotal = .ofNat a') (hb : s'.acceptedTotal = .ofNat b')
    (hd : s'.rejectedFull = .ofNat d')
    (hturn : a' + b + d + (s.producers i).inTurn = a + b' + d' + (s'.producers i).inTurn)
    (hticket : b' + s.queue.tickets.length + s'.ticketed i =
      b + s'.queue.tickets.length + s.ticketed i) : Turns s' a' b' d' := by
  have hturns : ∑ j, (s'.producers j).inTurn + (s.producers i).inTurn =
      ∑ j, (s.producers j).inTurn + (s'.producers i).inTurn :=
    sum_balance (i := i) (fun j hj => by rw [hother j hj]) (Nat.add_comm _ _)
  have htickets : ∑ j, s'.ticketed j + s.ticketed i = ∑ j, s.ticketed j + s'.ticketed i :=
    sum_balance (i := i) (fun j hj => by simp only [State.ticketed,hother j hj,hpc j _ hj])
      (Nat.add_comm _ _)
  have hold := h.turns
  have hold' := h.tickets
  exact ⟨ha,hb,hd,by omega,by omega⟩

theorem Takes.step {w : Fin (c+1)} {a b a' b' : Nat} (h : Takes s a b)
    (hother : ∀ v, v ≠ w → s'.workers v = s.workers v)
    (hpc : ∀ v k, v ≠ w → s'.queue.pc (.worker v k) = s.queue.pc (.worker v k))
    (ha : s'.consumedTotal = .ofNat a') (hb : s'.idempotentDups = .ofNat b')
    (htake : a' + s.queue.takers.length + s'.carrying w =
      a + s'.queue.takers.length + s.carrying w)
    (hmark : a' + s.seen.length + b + (s.workers w).unmarked =
      a + s'.seen.length + b' + (s'.workers w).unmarked) : Takes s' a' b' := by
  have htakers : ∑ v, s'.carrying v + s.carrying w = ∑ v, s.carrying v + s'.carrying w :=
    sum_balance (i := w) (fun v hv => by simp only [State.carrying,hother v hv,hpc v _ hv])
      (Nat.add_comm _ _)
  have hmarks : ∑ v, (s'.workers v).unmarked + (s.workers w).unmarked =
      ∑ v, (s.workers v).unmarked + (s'.workers w).unmarked :=
    sum_balance (i := w) (fun v hv => by rw [hother v hv]) (Nat.add_comm _ _)
  have hold := h.takers
  have hold' := h.marked
  exact ⟨ha,hb,by omega,by omega⟩

theorem Turns.produce {i : Fin p} {a b d : Nat} (hr : Roles n s) (h : Turns s a b d)
    (hs : ProducerStep perProducer s i s') : ∃ a b d, Turns s' a b d := by
  have hother : ∀ j, j ≠ i → s'.producers j = s.producers j := fun j hj => by
    cases hs <;> simp [State.setProducer,hj]
  have hpc : ∀ j k, j ≠ i → s'.queue.pc (.producer j k) = s.queue.pc (.producer j k) := by
    intro j k hj
    cases hs with
    | queue k' spurious q pc next => exact MpmcQueue.State.step_pc_of_ne next (by simp [hj])
    | call k' intent pc idle => simp [State.setProducer,MpmcQueue.State.goto,hj]
    | _ => rfl
  cases hs with
  | turn k draw pc lt =>
    refine ⟨a+1,b,d,h.step hother hpc (count_succ h.producedTotal) h.acceptedTotal h.rejectedFull ?_ ?_⟩
    · simp [State.setProducer,pc,Producer.inTurn]
      omega
    · simp [State.ticketed,State.setProducer,pc]
  | finish k pc =>
    refine ⟨a,b,d,h.step hother hpc h.producedTotal h.acceptedTotal h.rejectedFull ?_ ?_⟩
    · simp [State.setProducer,pc,Producer.inTurn]
    · simp [State.ticketed,State.setProducer,pc]
  | call k intent pc idle =>
    refine ⟨a,b,d,h.step hother hpc h.producedTotal h.acceptedTotal h.rejectedFull ?_ ?_⟩
    · simp [State.setProducer,pc,Producer.inTurn]
    · simp [State.ticketed,State.setProducer,pc,MpmcQueue.Pc.enqueued]
      rfl
  | queue k spurious q pc next =>
    refine ⟨a,b,d,h.step hother hpc h.producedTotal h.acceptedTotal h.rejectedFull ?_ ?_⟩
    · rfl
    · have hstep := hr.ticketed_step pc next
      simp only at hstep ⊢
      omega
  | returned k intent won pc ret =>
    refine ⟨a,b,d,h.step hother hpc h.producedTotal h.acceptedTotal h.rejectedFull ?_ ?_⟩
    · simp [State.setProducer,pc,Producer.inTurn]
    · cases won <;> simp [State.ticketed,State.setProducer,pc,ret,MpmcQueue.Pc.enqueued]
  | accepted k pc =>
    refine ⟨a,b+1,d,h.step hother hpc h.producedTotal (count_succ h.acceptedTotal) h.rejectedFull ?_ ?_⟩
    · simp [State.setProducer,pc,Producer.inTurn]
      omega
    · simp [State.ticketed,State.setProducer,pc]
      omega
  | rejected k pc =>
    refine ⟨a,b,d+1,h.step hother hpc h.producedTotal h.acceptedTotal (count_succ h.rejectedFull) ?_ ?_⟩
    · simp [State.setProducer,pc,Producer.inTurn]
      omega
    · simp [State.ticketed,State.setProducer,pc]

theorem Takes.work {w : Fin (c+1)} {a b : Nat} (hr : Roles n s) (h : Takes s a b)
    (hs : WorkerStep s w s') : ∃ a b, Takes s' a b := by
  have hother : ∀ v, v ≠ w → s'.workers v = s.workers v := fun v hv => by
    cases hs <;> simp [State.setWorker,hv]
  have hpc : ∀ v k, v ≠ w → s'.queue.pc (.worker v k) = s.queue.pc (.worker v k) := by
    intro v k hv
    cases hs with
    | queue k' recheck spurious q pc next => exact MpmcQueue.State.step_pc_of_ne next (by simp [hv])
    | call k' recheck pc idle => simp [State.setWorker,MpmcQueue.State.goto,hv]
    | _ => rfl
  cases hs with
  | call k recheck pc idle =>
    refine ⟨a,b,h.step hother hpc h.consumedTotal h.idempotentDups ?_ ?_⟩
    · simp [State.carrying,State.setWorker,pc,MpmcQueue.Pc.dequeued]
      rfl
    · simp [State.setWorker,pc,Worker.unmarked]
  | queue k recheck spurious q pc next =>
    refine ⟨a,b,h.step hother hpc h.consumedTotal h.idempotentDups ?_ rfl⟩
    have hstep := hr.carrying_step pc next
    simp only at hstep ⊢
    omega
  | got k recheck pos intent pc ret =>
    refine ⟨a,b,h.step hother hpc h.consumedTotal h.idempotentDups ?_ ?_⟩
    · simp [State.carrying,State.setWorker,pc,ret,MpmcQueue.Pc.dequeued]
    · simp [State.setWorker,pc,Worker.unmarked]
  | empty k pc ret | exit k pc ret =>
    refine ⟨a,b,h.step hother hpc h.consumedTotal h.idempotentDups ?_ ?_⟩
    · simp [State.carrying,State.setWorker,pc,ret,MpmcQueue.Pc.dequeued]
    · simp [State.setWorker,pc,Worker.unmarked]
  | test k pc | known k intent pc seen | write k intent pc =>
    refine ⟨a,b,h.step hother hpc h.consumedTotal h.idempotentDups ?_ ?_⟩
    · simp [State.carrying,State.setWorker,pc]
    · simp [State.setWorker,pc,Worker.unmarked]
  | count k intent pc =>
    refine ⟨a+1,b,h.step hother hpc (count_succ h.consumedTotal) h.idempotentDups ?_ ?_⟩
    · simp [State.carrying,State.setWorker,pc]
      omega
    · simp [State.setWorker,pc,Worker.unmarked]
      omega
  | mark k intent pc fresh =>
    refine ⟨a,b,h.step hother hpc h.consumedTotal h.idempotentDups ?_ ?_⟩
    · simp [State.carrying,State.setWorker,pc]
    · simp [State.setWorker,pc,Worker.unmarked]
      omega
  | dup k pc =>
    refine ⟨a,b+1,h.step hother hpc h.consumedTotal (count_succ h.idempotentDups) ?_ ?_⟩
    · simp [State.carrying,State.setWorker,pc]
    · simp [State.setWorker,pc,Worker.unmarked]
      omega

theorem reachable_counts (h : (system p c perProducer queueCap).Reachable s) :
    (∃ produced accepted rejected, Turns s produced accepted rejected) ∧
      ∃ consumed dups, Takes s consumed dups := by
  have hstep : ∀ s a s', (system p c perProducer queueCap).Reachable s →
      ((∃ a b d, Turns s a b d) ∧ ∃ a b, Takes s a b) →
      (system p c perProducer queueCap).next s a = some s' →
      (∃ a b d, Turns s' a b d) ∧ ∃ a b, Takes s' a b := by
    rintro s act s' hs ⟨⟨a,b,d,ht⟩,x,y,hk⟩ hn
    have hr := reachable_roles hs
    cases act with
    | produce i draw spurious =>
      have hp := State.produce_cases hn
      exact ⟨ht.produce hr hp,x,y,hk.frame (hr.workersSame hp)⟩
    | work w spurious =>
      have hw := State.work_cases hn
      exact ⟨⟨a,b,d,ht.frame (hr.producersSame hw)⟩,hk.work hr hw⟩
    | main =>
      have hm := State.main_cases hn
      refine ⟨⟨a,b,d,?_⟩,x,y,?_⟩
      · refine ht.frame ?_
        cases hm <;> exact ⟨rfl,rfl,fun _ _ => rfl,rfl,rfl,rfl⟩
      · refine hk.frame ?_
        cases hm <;> exact ⟨rfl,rfl,fun _ _ => rfl,rfl,rfl,rfl,rfl⟩
  obtain ⟨s₀,as,hi,hrun⟩ := h
  refine (System.Reachable.of_init hi).invariant_run hstep hrun ?_
  obtain ⟨q,hq,rfl⟩ := hi
  obtain ⟨ht,hk⟩ : q.tickets = [] ∧ q.takers = [] := by
    unfold MpmcQueue.create at hq
    split at hq <;> cases hq
    exact ⟨rfl,rfl⟩
  refine ⟨⟨0,0,0,rfl,rfl,rfl,?_,?_⟩,0,0,rfl,rfl,?_,?_⟩
  · simp [start,Producer.inTurn]
  · simp [start,State.ticketed,ht]
  · simp [start,State.carrying,hk]
  · simp [start,Worker.unmarked]

theorem Roles.ended (h : Roles n s) (he : s.main = .ended) :
    (∀ i, s.producers i = .done) ∧ ∀ w, s.workers w = .exited := by
  have hjoined : s.Joined .ended := he ▸ h.joined
  exact ⟨h.done hjoined.1,hjoined.2⟩

/-- The two assertions at the end of `main`, for any number of producers, turns and
workers, any queue and any interleaving. -/
theorem asserts_hold (h : (system p c perProducer queueCap).Reachable s) (he : s.main = .ended) :
    s.producedTotal = s.acceptedTotal + s.rejectedFull ∧ s.consumedTotal = s.acceptedTotal := by
  obtain ⟨hdone,hexited⟩ := (reachable_roles h).ended he
  obtain ⟨⟨produced,accepted,rejected,ht⟩,consumed,dups,hk⟩ := reachable_counts h
  have hdrained := reachable_drained h 0 (.inl (hexited 0))
  have hturns := ht.turns
  have htickets := ht.tickets
  have htakers := hk.takers
  simp only [hdone,Producer.inTurn,Finset.sum_const_zero,Nat.add_zero] at hturns
  simp only [State.ticketed,hdone,Finset.sum_const_zero,Nat.add_zero] at htickets
  simp only [State.carrying,hexited,Finset.sum_const_zero,Nat.add_zero] at htakers
  constructor
  · rw [ht.producedTotal,ht.acceptedTotal,ht.rejectedFull,← UInt64.ofNat_add,hturns]
  · rw [hk.consumedTotal,ht.acceptedTotal,htakers,hdrained,htickets]

def State.accepted (s : State p c) : List OrderIntent := s.queue.tickets.map (·.2)

/-- One producer of 102 turns and one worker, to the end. The queue takes two intents and
refuses 99; when both are out, the last turn repeats the id of the second. -/
def repeatActs : List (Act 1 0) :=
  List.replicate 612 (.produce 0 ⟨false,7,0⟩ false) ++ List.replicate 28 (.work 0 false) ++
    List.replicate 10 (.produce 0 ⟨true,7,0⟩ false) ++ List.replicate 14 (.work 0 false) ++
    List.replicate 3 .main ++ List.replicate 7 (.work 0 false) ++ List.replicate 2 .main

def repeatQueue : MpmcQueue.State Nat OrderIntent (Caller 1 0) := (MpmcQueue.create 2).get rfl

def repeatState : State 1 0 :=
  ((system 1 0 102 2).exec (start repeatQueue) repeatActs).getD (start repeatQueue)

theorem repeatState_ended : (system 1 0 102 2).Reachable repeatState ∧ repeatState.main = .ended ∧
    repeatState.accepted.map (·.requestId) = [0,1,1] ∧
    repeatState.written.map (·.requestId) = [0,1] ∧ repeatState.rejectedFull = 99 ∧
    repeatState.idempotentDups = 1 := by
  have h : ((system 1 0 102 2).exec (start repeatQueue) repeatActs).map
      (fun s => (s.main,s.accepted.map (·.requestId),s.written.map (·.requestId),s.rejectedFull,
        s.idempotentDups)) = some (.ended,[0,1,1],[0,1],99,1) := by decide +kernel
  obtain ⟨s,hs,he⟩ := Option.map_eq_some_iff.mp h
  have hstate : repeatState = s := by rw [repeatState,hs,Option.getD_some]
  simp only [Prod.mk.injEq] at he
  rw [hstate]
  exact ⟨⟨_,_,⟨repeatQueue,(Option.some_get _).symm,rfl⟩,System.run_of_exec hs⟩,he⟩

theorem asserts_hold_repeat : repeatState.rejectedFull = 99 ∧ repeatState.idempotentDups = 1 ∧
    repeatState.producedTotal = repeatState.acceptedTotal + repeatState.rejectedFull ∧
      repeatState.consumedTotal = repeatState.acceptedTotal := by
  obtain ⟨hreach,hended,-,-,hfull,hdups⟩ := repeatState_ended
  exact ⟨hfull,hdups,asserts_hold hreach hended⟩

end Flashsale.OrderWorker
