import Flashsale.OrderWorker
import Flashsale.MpmcReports
set_option autoImplicit false

namespace Flashsale.OrderWorker
open Transition
variable {p c perProducer queueCap : Nat}

inductive ProducerStep (perProducer : Nat) (s : State p c) (i : Fin p) : State p c → Prop where
  | turn (k : Nat) (draw : Draw) (pc : s.producers i = .loop k) (lt : k < perProducer) :
      ProducerStep perProducer s i ({ s with producedTotal := s.producedTotal + 1 }.setProducer i
        (.enqueue k (intentOf i k draw)))
  | finish (k : Nat) (pc : s.producers i = .loop k) :
      ProducerStep perProducer s i (s.setProducer i .done)
  | call (k : Nat) (intent : OrderIntent) (pc : s.producers i = .enqueue k intent)
      (idle : s.queue.pc (.producer i k) = .idle) :
      ProducerStep perProducer s i
        ({ s with queue := s.queue.goto (.producer i k) (.enqLoadPos intent) }.setProducer i
          (.enqueuing k))
  | queue (k : Nat) (spurious : Bool) (q : MpmcQueue.State Nat OrderIntent (Caller p c))
      (pc : s.producers i = .enqueuing k) (next : s.queue.step (.producer i k) spurious = some q) :
      ProducerStep perProducer s i { s with queue := q }
  | returned (k : Nat) (intent : OrderIntent) (won : Option Nat) (pc : s.producers i = .enqueuing k)
      (ret : s.queue.pc (.producer i k) = .enqReturn intent won) :
      ProducerStep perProducer s i (s.setProducer i (.count k won.isSome))
  | accepted (k : Nat) (pc : s.producers i = .count k true) :
      ProducerStep perProducer s i
        ({ s with acceptedTotal := s.acceptedTotal + 1 }.setProducer i (.loop (k+1)))
  | rejected (k : Nat) (pc : s.producers i = .count k false) :
      ProducerStep perProducer s i
        ({ s with rejectedFull := s.rejectedFull + 1 }.setProducer i (.loop (k+1)))

inductive WorkerStep (s : State p c) (w : Fin (c+1)) : State p c → Prop where
  | call (k : Nat) (recheck : Bool) (pc : s.workers w = .tryDequeue k recheck)
      (idle : s.queue.pc (.worker w k) = .idle) :
      WorkerStep s w ({ s with queue := s.queue.goto (.worker w k) .deqLoadPos }.setWorker w
        (.dequeuing k recheck))
  | queue (k : Nat) (recheck spurious : Bool) (q : MpmcQueue.State Nat OrderIntent (Caller p c))
      (pc : s.workers w = .dequeuing k recheck)
      (next : s.queue.step (.worker w k) spurious = some q) : WorkerStep s w { s with queue := q }
  | got (k : Nat) (recheck : Bool) (pos : Nat) (intent : OrderIntent)
      (pc : s.workers w = .dequeuing k recheck)
      (ret : s.queue.pc (.worker w k) = .deqReturn (some (pos,intent))) :
      WorkerStep s w (s.setWorker w (.count k intent))
  | empty (k : Nat) (pc : s.workers w = .dequeuing k false)
      (ret : s.queue.pc (.worker w k) = .deqReturn none) :
      WorkerStep s w (s.setWorker w (.testDone (k+1)))
  | exit (k : Nat) (pc : s.workers w = .dequeuing k true)
      (ret : s.queue.pc (.worker w k) = .deqReturn none) : WorkerStep s w (s.setWorker w .exited)
  | test (k : Nat) (pc : s.workers w = .testDone k) :
      WorkerStep s w (s.setWorker w (.tryDequeue k s.producersDone))
  | count (k : Nat) (intent : OrderIntent) (pc : s.workers w = .count k intent) :
      WorkerStep s w
        ({ s with consumedTotal := s.consumedTotal + 1 }.setWorker w (.mark k intent))
  | known (k : Nat) (intent : OrderIntent) (pc : s.workers w = .mark k intent)
      (seen : intent.requestId ∈ s.seen) : WorkerStep s w (s.setWorker w (.dup k))
  | mark (k : Nat) (intent : OrderIntent) (pc : s.workers w = .mark k intent)
      (fresh : intent.requestId ∉ s.seen) :
      WorkerStep s w
        ({ s with seen := intent.requestId :: s.seen }.setWorker w (.write k intent))
  | dup (k : Nat) (pc : s.workers w = .dup k) :
      WorkerStep s w ({ s with idempotentDups := s.idempotentDups + 1 }.setWorker w
        (.tryDequeue (k+1) false))
  | write (k : Nat) (intent : OrderIntent) (pc : s.workers w = .write k intent) :
      WorkerStep s w
        ({ s with written := s.written ++ [intent] }.setWorker w (.tryDequeue (k+1) false))

inductive MainStep (s : State p c) : State p c → Prop where
  | joinProducer (i : Nat) (h : i < p) (pc : s.main = .joinProducer i)
      (done : s.producers ⟨i,h⟩ = .done) : MainStep s { s with main := .joinProducer (i+1) }
  | joined (i : Nat) (h : ¬ i < p) (pc : s.main = .joinProducer i) :
      MainStep s { s with main := .storeDone }
  | storeDone (pc : s.main = .storeDone) :
      MainStep s { s with producersDone := true, main := .joinWorker 0 }
  | joinWorker (w : Nat) (h : w < c+1) (pc : s.main = .joinWorker w)
      (exited : s.workers ⟨w,h⟩ = .exited) : MainStep s { s with main := .joinWorker (w+1) }
  | finish (w : Nat) (h : ¬ w < c+1) (pc : s.main = .joinWorker w) :
      MainStep s { s with main := .ended }

section Cases
variable {s s' : State p c}

theorem State.produce_cases {i : Fin p} {draw : Draw} {spurious : Bool}
    (h : s.produce perProducer i draw spurious = some s') : ProducerStep perProducer s i s' := by
  unfold State.produce at h
  cases hpc : s.producers i with
  | loop k =>
    simp only [hpc] at h
    split at h <;> cases h
    · exact .turn k draw hpc ‹_›
    · exact .finish k hpc
  | enqueue k intent =>
    simp only [hpc,Option.map_eq_some_iff] at h
    obtain ⟨q,hq,rfl⟩ := h
    obtain ⟨hidle,rfl⟩ := MpmcQueue.State.call_eq hq
    exact .call k intent hpc hidle
  | enqueuing k =>
    simp only [hpc] at h
    split at h
    · cases h
      exact .returned k _ _ hpc ‹_›
    · obtain ⟨q,hq,rfl⟩ := Option.map_eq_some_iff.mp h
      exact .queue k spurious q hpc hq
  | count k ok =>
    simp only [hpc] at h
    cases ok <;> cases h
    · exact .rejected k hpc
    · exact .accepted k hpc
  | done => simp [hpc] at h

theorem State.work_cases {w : Fin (c+1)} {spurious : Bool} (h : s.work w spurious = some s') :
    WorkerStep s w s' := by
  unfold State.work at h
  cases hpc : s.workers w with
  | tryDequeue k recheck =>
    simp only [hpc,Option.map_eq_some_iff] at h
    obtain ⟨q,hq,rfl⟩ := h
    obtain ⟨hidle,rfl⟩ := MpmcQueue.State.call_eq hq
    exact .call k recheck hpc hidle
  | dequeuing k recheck =>
    simp only [hpc] at h
    split at h
    · cases h
      exact .got k recheck _ _ hpc ‹_›
    · cases recheck <;> cases h
      · exact .empty k hpc ‹_›
      · exact .exit k hpc ‹_›
    · obtain ⟨q,hq,rfl⟩ := Option.map_eq_some_iff.mp h
      exact .queue k recheck spurious q hpc hq
  | testDone k =>
    simp only [hpc,Option.some.injEq] at h
    subst h
    exact .test k hpc
  | count k intent =>
    simp only [hpc,Option.some.injEq] at h
    subst h
    exact .count k intent hpc
  | mark k intent =>
    by_cases hseen : intent.requestId ∈ s.seen
    · simp only [hpc,tryMark,hseen,if_true,Bool.false_eq_true,if_false,Option.some.injEq] at h
      subst h
      exact .known k intent hpc hseen
    · simp only [hpc,tryMark,hseen,if_false,if_true,Option.some.injEq] at h
      subst h
      exact .mark k intent hpc hseen
  | dup k =>
    simp only [hpc,Option.some.injEq] at h
    subst h
    exact .dup k hpc
  | write k intent =>
    simp only [hpc,Option.some.injEq] at h
    subst h
    exact .write k intent hpc
  | exited => simp [hpc] at h

theorem State.main_cases (h : s.mainStep = some s') : MainStep s s' := by
  unfold State.mainStep at h
  cases hpc : s.main with
  | joinProducer i =>
    simp only [hpc] at h
    split at h
    · split at h <;> cases h
      exact .joinProducer i ‹_› hpc ‹_›
    · cases h
      exact .joined i ‹_› hpc
  | storeDone =>
    simp only [hpc,Option.some.injEq] at h
    subst h
    exact .storeDone hpc
  | joinWorker w =>
    simp only [hpc] at h
    split at h
    · split at h <;> cases h
      exact .joinWorker w ‹_› hpc ‹_›
    · cases h
      exact .finish w ‹_› hpc
  | ended => simp [hpc] at h

end Cases

structure QueueOk (n : Nat) (q : MpmcQueue.State Nat OrderIntent (Caller p c)) : Prop where
  inv : MpmcQueue.Inv n q
  marks : MpmcQueue.Marks n q
  takers : MpmcQueue.Takers q
  consumers : MpmcQueue.Consumers (fun x => ∃ w k, x = .worker w k) q
  carries : MpmcQueue.Carries (fun x _ => ∃ i k, x = .producer i k) q

theorem QueueOk.next {n : Nat} {q q' : MpmcQueue.State Nat OrderIntent (Caller p c)}
    {a : MpmcQueue.Act OrderIntent (Caller p c)} (h : QueueOk n q) (hn : q.next a = some q')
    (hd : ∀ x, a = .dequeue x → ∃ w k, x = .worker w k)
    (he : ∀ x data, a = .enqueue x data → ∃ i k, x = .producer i k) : QueueOk n q' where
  inv := h.inv.next trivial hn
  marks := h.marks.next h.inv trivial hn
  takers := h.takers.next h.inv hn
  consumers := h.consumers.next hd hn
  carries := h.carries.next he hn

/-- What `main` knows of the threads it has joined. -/
def State.Joined (s : State p c) : Main → Prop
  | .joinProducer i => ∀ j : Fin p, j.val < i → s.producers j = .done
  | .storeDone => ∀ j, s.producers j = .done
  | .joinWorker w =>
      s.producersDone = true ∧ ∀ v : Fin (c+1), v.val < w → s.workers v = .exited
  | .ended => s.producersDone = true ∧ ∀ v, s.workers v = .exited

def Worker.late : Worker → Bool
  | .tryDequeue _ recheck | .dequeuing _ recheck => recheck
  | .exited => true
  | _ => false

structure Roles (n : Nat) (s : State p c) : Prop where
  queue : QueueOk n s.queue
  producing : ∀ i k, (s.queue.pc (.producer i k)).item.isSome →
    (s.queue.pc (.producer i k)).ret.isSome ∨ s.producers i = .enqueuing k
  working : ∀ w k, (s.queue.pc (.worker w k)).dequeuing →
    (s.queue.pc (.worker w k)).ret.isSome ∨ ∃ recheck, s.workers w = .dequeuing k recheck
  called : ∀ w k recheck, s.workers w = .dequeuing k recheck →
    (s.queue.pc (.worker w k)).dequeuing
  done : s.producersDone = true → ∀ i, s.producers i = .done
  joined : s.Joined s.main
  late : ∀ w, (s.workers w).late → s.producersDone = true

section Roles
variable {n : Nat} {s s' : State p c}

theorem create_roles {q : MpmcQueue.State Nat OrderIntent (Caller p c)}
    (hq : MpmcQueue.create queueCap = some q) : Roles queueCap (start q) := by
  obtain ⟨hmarks,htakers,hidle⟩ := MpmcQueue.create_marks hq
  refine ⟨⟨MpmcQueue.create_inv hq,hmarks,htakers,?_,?_⟩,?_,?_,by simp [start],by simp [start],?_,by simp [start,Worker.late]⟩
  · intro x hx
    simp [start,hidle,MpmcQueue.Pc.dequeuing] at hx
  · intro x data hx
    simp [start,hidle,MpmcQueue.Pc.item] at hx
  · intro i k hx
    simp [start,hidle,MpmcQueue.Pc.item] at hx
  · intro w k hx
    simp [start,hidle,MpmcQueue.Pc.dequeuing] at hx
  · intro j hj
    exact absurd hj (Nat.not_lt_zero _)

theorem State.Joined.setProducer {m : Main} {i : Fin p} {pc : Producer} (h : s.Joined m)
    (hpc : s.producers i ≠ .done) : (s.setProducer i pc).Joined m := by
  have hother : ∀ j, s.producers j = .done → Function.update s.producers i pc j = .done := by
    intro j hj
    have hne : j ≠ i := by rintro rfl; exact hpc hj
    simpa [hne] using hj
  cases m with
  | joinProducer k => exact fun j hj => hother j (h j hj)
  | storeDone => exact fun j => hother j (h j)
  | joinWorker w => exact h
  | ended => exact h

theorem State.Joined.setWorker {m : Main} {w : Fin (c+1)} {pc : Worker} (h : s.Joined m)
    (hpc : s.workers w ≠ .exited) : (s.setWorker w pc).Joined m := by
  have hother : ∀ v, s.workers v = .exited → Function.update s.workers w pc v = .exited := by
    intro v hv
    have hne : v ≠ w := by rintro rfl; exact hpc hv
    simpa [hne] using hv
  cases m with
  | joinProducer k => exact h
  | storeDone => exact h
  | joinWorker k => exact ⟨h.1,fun v hv => hother v (h.2 v hv)⟩
  | ended => exact ⟨h.1,fun v => hother v (h.2 v)⟩

theorem Roles.setProducer {i : Fin p} (h : Roles n s) (pc : Producer) (hpc : s.producers i ≠ .done)
    (hq : ∀ k, s.producers i = .enqueuing k → (s.queue.pc (.producer i k)).ret.isSome) :
    Roles n (s.setProducer i pc) where
  queue := h.queue
  producing := by
    intro j k hx
    rcases h.producing j k hx with hr | hj
    · exact .inl hr
    · by_cases hji : j = i
      · subst hji
        exact .inl (hq k hj)
      · right
        simpa [State.setProducer,hji] using hj
  working := h.working
  called := h.called
  done hd := absurd (h.done hd i) hpc
  joined := h.joined.setProducer hpc
  late := h.late

theorem Roles.setWorker {w : Fin (c+1)} (h : Roles n s) (pc : Worker)
    (hpc : s.workers w ≠ .exited)
    (hq : ∀ k recheck, s.workers w = .dequeuing k recheck → (s.queue.pc (.worker w k)).ret.isSome)
    (hcalled : ∀ k recheck, pc ≠ .dequeuing k recheck)
    (hlate : pc.late → s.producersDone = true) : Roles n (s.setWorker w pc) where
  queue := h.queue
  producing := h.producing
  working := by
    intro v k hx
    rcases h.working v k hx with hr | ⟨recheck,hv⟩
    · exact .inl hr
    · by_cases hvw : v = w
      · subst hvw
        exact .inl (hq k recheck hv)
      · right
        exact ⟨recheck,by simpa [State.setWorker,hvw] using hv⟩
  called := by
    intro v k recheck hv
    by_cases hvw : v = w
    · subst hvw
      simp only [State.setWorker,Function.update_self] at hv
      exact absurd hv (hcalled k recheck)
    · exact h.called v k recheck (by simpa [State.setWorker,hvw] using hv)
  done := h.done
  joined := h.joined.setWorker hpc
  late := by
    intro v hv
    by_cases hvw : v = w
    · subst hvw
      exact hlate (by simpa [State.setWorker] using hv)
    · exact h.late v (by simpa [State.setWorker,hvw] using hv)

theorem Roles.produce {i : Fin p} (h : Roles n s) (hs : ProducerStep perProducer s i s') :
    Roles n s' := by
  cases hs with
  | turn k draw pc lt =>
    have hset := h.setProducer (i := i) (.enqueue k (intentOf i k draw)) (by simp [pc]) (by simp [pc])
    exact { hset with }
  | finish k pc => exact h.setProducer .done (by simp [pc]) (by simp [pc])
  | returned k intent won pc ret =>
    refine h.setProducer _ (by simp [pc]) fun k' hk => ?_
    obtain rfl : k = k' := by simpa [pc] using hk
    cases won <;> simp [ret,MpmcQueue.Pc.ret]
  | accepted k pc | rejected k pc =>
    have hset := h.setProducer (i := i) (.loop (k+1)) (by simp [pc]) (by simp [pc])
    exact { hset with }
  | call k intent pc idle =>
    have hq : s.queue.next (.enqueue (.producer i k) intent) =
        some (s.queue.goto (.producer i k) (.enqLoadPos intent)) := by
      simp [MpmcQueue.State.next,MpmcQueue.State.call,idle]
    have hset := h.setProducer (i := i) (.enqueuing k) (by simp [pc]) (by simp [pc])
    refine { hset with queue := h.queue.next hq (by simp) ?_, producing := ?_, working := ?_, called := ?_ }
    · rintro x data ⟨⟩
      exact ⟨i,k,rfl⟩
    · intro j k' hx
      by_cases hj : (j = i ∧ k' = k)
      · obtain ⟨rfl,rfl⟩ := hj
        right
        simp [State.setProducer]
      · have hne : Caller.producer (c := c) j k' ≠ .producer i k := by simpa using hj
        rw [State.setProducer] at hx ⊢
        simp only [MpmcQueue.State.goto_pc_of_ne hne] at hx ⊢
        exact hset.producing j k' hx
    · intro w k'
      simpa [State.setProducer,MpmcQueue.State.goto] using h.working w k'
    · intro w k' recheck hw
      simpa [State.setProducer,MpmcQueue.State.goto] using h.called w k' recheck hw
  | queue k spurious q pc next =>
    have hq : s.queue.next (.step (.producer i k) spurious) = some q := next
    have hother : ∀ x, x ≠ .producer i k → q.pc x = s.queue.pc x :=
      fun x hx => MpmcQueue.State.step_pc_of_ne next hx
    refine ⟨h.queue.next hq (by simp) (by simp),?_,?_,?_,h.done,h.joined,h.late⟩
    · intro j k' hx
      by_cases hj : (j = i ∧ k' = k)
      · obtain ⟨rfl,rfl⟩ := hj
        exact .inr pc
      · have hne : Caller.producer (c := c) j k' ≠ .producer i k := by simpa using hj
        rw [hother _ hne] at hx ⊢
        exact h.producing j k' hx
    · intro w k'
      rw [hother _ (by simp)]
      exact h.working w k'
    · intro w k' recheck hw
      rw [hother _ (by simp)]
      exact h.called w k' recheck hw

theorem Roles.work {w : Fin (c+1)} (h : Roles n s) (hs : WorkerStep s w s') : Roles n s' := by
  cases hs with
  | call k recheck pc idle =>
    have hq : s.queue.next (.dequeue (.worker w k)) =
        some (s.queue.goto (.worker w k) .deqLoadPos) := by
      simp [MpmcQueue.State.next,MpmcQueue.State.call,idle]
    refine ⟨h.queue.next hq ?_ (by simp),?_,?_,?_,h.done,h.joined.setWorker (by simp [pc]),?_⟩
    · rintro x ⟨⟩
      exact ⟨w,k,rfl⟩
    · intro i k'
      simpa [State.setWorker,MpmcQueue.State.goto] using h.producing i k'
    · intro v k' hx
      by_cases hv : (v = w ∧ k' = k)
      · obtain ⟨rfl,rfl⟩ := hv
        exact .inr ⟨recheck,by simp [State.setWorker]⟩
      · have hne : Caller.worker (p := p) v k' ≠ .worker w k := by simpa using hv
        simp only [State.setWorker,MpmcQueue.State.goto_pc_of_ne hne] at hx ⊢
        refine (h.working v k' hx).imp id ?_
        rintro ⟨r,hr⟩
        have hvw : v ≠ w := by rintro rfl; simp [pc] at hr
        exact ⟨r,by simpa [hvw] using hr⟩
    · intro v k' r hr
      by_cases hvw : v = w
      · subst hvw
        obtain ⟨rfl,rfl⟩ : k = k' ∧ recheck = r := by simpa [State.setWorker] using hr
        simp [State.setWorker,MpmcQueue.Pc.dequeuing]
      · have hne : Caller.worker (p := p) v k' ≠ .worker w k := by simp [hvw]
        simp only [State.setWorker,MpmcQueue.State.goto_pc_of_ne hne]
        exact h.called v k' r (by simpa [State.setWorker,hvw] using hr)
    · intro v hv
      by_cases hvw : v = w
      · subst hvw
        exact h.late v (by simpa [State.setWorker,pc,Worker.late] using hv)
      · exact h.late v (by simpa [State.setWorker,hvw] using hv)
  | queue k recheck spurious q pc next =>
    have hq : s.queue.next (.step (.worker w k) spurious) = some q := next
    have hother : ∀ x, x ≠ .worker w k → q.pc x = s.queue.pc x :=
      fun x hx => MpmcQueue.State.step_pc_of_ne next hx
    refine ⟨h.queue.next hq (by simp) (by simp),?_,?_,?_,h.done,h.joined,h.late⟩
    · intro i k'
      rw [hother _ (by simp)]
      exact h.producing i k'
    · intro v k' hx
      by_cases hv : (v = w ∧ k' = k)
      · obtain ⟨rfl,rfl⟩ := hv
        exact .inr ⟨recheck,pc⟩
      · have hne : Caller.worker (p := p) v k' ≠ .worker w k := by simpa using hv
        rw [hother _ hne] at hx ⊢
        exact h.working v k' hx
    · intro v k' r hr
      by_cases hv : (v = w ∧ k' = k)
      · obtain ⟨rfl,rfl⟩ := hv
        rw [(MpmcQueue.State.step_effect next).2.1]
        exact h.called v k' r hr
      · have hne : Caller.worker (p := p) v k' ≠ .worker w k := by simpa using hv
        rw [hother _ hne]
        exact h.called v k' r hr
  | got k recheck pos intent pc ret =>
    refine h.setWorker _ (by simp [pc]) (fun k' r hk => ?_) (by simp) (by simp [Worker.late])
    obtain ⟨rfl,rfl⟩ : k = k' ∧ recheck = r := by simpa [pc] using hk
    simp [ret,MpmcQueue.Pc.ret]
  | empty k pc ret =>
    refine h.setWorker _ (by simp [pc]) (fun k' r hk => ?_) (by simp) (by simp [Worker.late])
    obtain ⟨rfl,rfl⟩ : k = k' ∧ false = r := by simpa [pc] using hk
    simp [ret,MpmcQueue.Pc.ret]
  | exit k pc ret =>
    refine h.setWorker _ (by simp [pc]) (fun k' r hk => ?_) (by simp) fun _ => ?_
    · obtain ⟨rfl,rfl⟩ : k = k' ∧ true = r := by simpa [pc] using hk
      simp [ret,MpmcQueue.Pc.ret]
    · exact h.late w (by simp [pc,Worker.late])
  | test k pc => exact h.setWorker _ (by simp [pc]) (by simp [pc]) (by simp) id
  | known k intent pc seen => exact h.setWorker _ (by simp [pc]) (by simp [pc]) (by simp) (by simp [Worker.late])
  | count k intent pc =>
    have hset := h.setWorker (w := w) (.mark k intent) (by simp [pc]) (by simp [pc]) (by simp)
      (by simp [Worker.late])
    exact { hset with }
  | mark k intent pc fresh =>
    have hset := h.setWorker (w := w) (.write k intent) (by simp [pc]) (by simp [pc]) (by simp)
      (by simp [Worker.late])
    exact { hset with }
  | dup k pc | write k intent pc =>
    have hset := h.setWorker (w := w) (.tryDequeue (k+1) false) (by simp [pc]) (by simp [pc]) (by simp)
      (by simp [Worker.late])
    exact { hset with }

theorem Roles.main (h : Roles n s) (hs : MainStep s s') : Roles n s' := by
  have hjoined := h.joined
  cases hs with
  | joinProducer i lt pc done =>
    rw [pc] at hjoined
    refine { h with joined := fun j hj => ?_ }
    rcases Nat.lt_succ_iff_lt_or_eq.mp hj with hj | hj
    · exact hjoined j hj
    · obtain rfl : j = ⟨i,lt⟩ := Fin.ext hj
      exact done
  | joined i ge pc =>
    rw [pc] at hjoined
    exact { h with joined := fun j => hjoined j (by omega) }
  | storeDone pc =>
    rw [pc] at hjoined
    exact { h with done := fun _ => hjoined, joined := ⟨rfl,by simp⟩, late := fun _ _ => rfl }
  | joinWorker w lt pc exited =>
    rw [pc] at hjoined
    refine { h with joined := ⟨hjoined.1,fun v hv => ?_⟩ }
    rcases Nat.lt_succ_iff_lt_or_eq.mp hv with hv | hv
    · exact hjoined.2 v hv
    · obtain rfl : v = ⟨w,lt⟩ := Fin.ext hv
      exact exited
  | finish w ge pc =>
    rw [pc] at hjoined
    exact { h with joined := ⟨hjoined.1,fun v => hjoined.2 v (by omega)⟩ }

theorem reachable_roles (h : (system p c perProducer queueCap).Reachable s) : Roles queueCap s := by
  refine h.invariant ?_ ?_
  · rintro s ⟨q,hq,rfl⟩
    exact create_roles hq
  · intro s a s' hs hn
    cases a with
    | produce i draw spurious => exact hs.produce (State.produce_cases hn)
    | work w spurious => exact hs.work (State.work_cases hn)
    | main => exact hs.main (State.main_cases hn)

end Roles
end Flashsale.OrderWorker
