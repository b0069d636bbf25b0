import Flashsale.OrderWorkerCounts
import Mathlib
set_option autoImplicit false

namespace Flashsale.OrderWorker
open Transition
variable {p c perProducer queueCap n : Nat} {s s' : State p c}

def Worker.writing : Worker → Multiset UInt64
  | .write _ intent => {intent.requestId}
  | _ => 0

def Worker.Holds : Worker → Nat → Prop
  | .dequeuing k _, j | .count k _, j | .mark k _, j => k = j
  | _, _ => False

/-- The intent a worker has taken and not written yet. -/
def Worker.hand : Worker → Option OrderIntent
  | .count _ intent | .mark _ intent | .write _ intent => some intent
  | _ => none

structure Marked (s : State p c) : Prop where
  nodup : s.seen.Nodup
  written : (s.written.map (·.requestId) : Multiset UInt64) + ∑ w, (s.workers w).writing = s.seen
  fetched : ∀ w k intent, s.workers w = .count k intent ∨ s.workers w = .mark k intent →
    ∃ pos, s.queue.pc (.worker w k) = .deqReturn (some (pos,intent))
  hand : ∀ w, ∀ intent ∈ (s.workers w).hand, intent ∈ s.accepted
  taken : ∀ intent ∈ s.written, intent ∈ s.accepted
  handled : ∀ w k pos intent, s.queue.pc (.worker w k) = .deqReturn (some (pos,intent)) →
    intent.requestId ∈ s.seen ∨ (s.workers w).Holds k

theorem create_marked {q : MpmcQueue.State Nat OrderIntent (Caller p c)}
    (hq : MpmcQueue.create queueCap = some q) : Marked (start q) := by
  obtain ⟨-,-,hidle⟩ := MpmcQueue.create_marks hq
  refine ⟨List.nodup_nil,?_,?_,?_,by simp [start],?_⟩
  · simp [start,Worker.writing]
  · intro w k intent h
    simp [start] at h
  · intro w intent h
    simp [start,Worker.hand] at h
  · intro w k pos intent h
    simp [start,hidle] at h

theorem Marked.produce {i : Fin p} (hr : Roles n s) (h : Marked s)
    (hs : ProducerStep perProducer s i s') : Marked s' := by
  have hsame := hr.workersSame hs
  have haccepted : s.accepted ⊆ s'.accepted := by
    cases hs with
    | queue k spurious q pc next =>
      have hq : s.queue.next (.step (.producer i k) spurious) = some q := next
      exact List.map_subset _ (MpmcQueue.State.next_tickets hq).subset
    | _ => exact List.Subset.refl _
  refine ⟨hsame.seen ▸ h.nodup,?_,?_,?_,?_,?_⟩
  · rw [hsame.seen,hsame.written,hsame.workers]
    exact h.written
  · simp only [hsame.workers,hsame.pc]
    exact h.fetched
  · intro w intent hw
    rw [hsame.workers] at hw
    exact haccepted (h.hand w intent hw)
  · intro intent hw
    rw [hsame.written] at hw
    exact haccepted (h.taken intent hw)
  · simp only [hsame.workers,hsame.pc,hsame.seen]
    exact h.handled

theorem Marked.setWorker {w : Fin (c+1)} (h : Marked s) (pc : Worker)
    (hwriting : pc.writing = (s.workers w).writing)
    (hfetched : ∀ k intent, pc = .count k intent ∨ pc = .mark k intent →
      ∃ pos, s.queue.pc (.worker w k) = .deqReturn (some (pos,intent)))
    (hhand : ∀ intent ∈ pc.hand, intent ∈ s.accepted)
    (hholds : ∀ k pos intent, s.queue.pc (.worker w k) = .deqReturn (some (pos,intent)) →
      (s.workers w).Holds k → intent.requestId ∈ s.seen ∨ pc.Holds k) : Marked (s.setWorker w pc) := by
  refine ⟨h.nodup,?_,?_,?_,h.taken,?_⟩
  · have hsum : ∑ v, (Function.update s.workers w pc v).writing = ∑ v, (s.workers v).writing := by
      refine Finset.sum_congr rfl fun v _ => ?_
      by_cases hv : v = w
      · subst hv
        simpa using hwriting
      · simp [hv]
    exact (congrArg _ hsum).trans h.written
  · intro v k intent hv
    by_cases hvw : v = w
    · subst hvw
      exact hfetched k intent (by simpa [State.setWorker] using hv)
    · exact h.fetched v k intent (by simpa [State.setWorker,hvw] using hv)
  · intro v intent hv
    by_cases hvw : v = w
    · subst hvw
      exact hhand intent (by simpa [State.setWorker] using hv)
    · exact h.hand v intent (by simpa [State.setWorker,hvw] using hv)
  · intro v k pos intent hv
    by_cases hvw : v = w
    · subst hvw
      simp only [State.setWorker,Function.update_self] at hv ⊢
      exact (h.handled v k pos intent hv).elim .inl (hholds k pos intent hv)
    · simpa [State.setWorker,hvw] using h.handled v k pos intent hv

theorem Marked.setQueue {w : Fin (c+1)} {k : Nat} {recheck : Bool}
    {q : MpmcQueue.State Nat OrderIntent (Caller p c)} (h : Marked s)
    (pc : s.workers w = .dequeuing k recheck)
    (hother : ∀ x, x ≠ .worker w k → q.pc x = s.queue.pc x)
    (ht : q.tickets = s.queue.tickets) : Marked { s with queue := q } := by
  have haccepted : ({ s with queue := q } : State p c).accepted = s.accepted := by
    simp only [State.accepted,ht]
  refine ⟨h.nodup,h.written,?_,?_,?_,?_⟩
  · intro v k' intent hv
    have hne : v ≠ w := by
      rintro rfl
      simp [pc] at hv
    simpa only [hother (.worker v k') (by simp [hne])] using h.fetched v k' intent hv
  · rw [haccepted]
    exact h.hand
  · rw [haccepted]
    exact h.taken
  · intro v k' pos intent hv
    by_cases hvw : v = w ∧ k' = k
    · obtain ⟨rfl,rfl⟩ := hvw
      right
      simp [pc,Worker.Holds]
    · have hne : Caller.worker (p := p) v k' ≠ .worker w k := by simpa using hvw
      simp only [hother _ hne] at hv
      exact h.handled v k' pos intent hv

theorem Marked.work {w : Fin (c+1)} (hr : Roles n s) (h : Marked s) (hs : WorkerStep s w s') :
    Marked s' := by
  cases hs with
  | got k recheck pos intent pc ret =>
    refine h.setWorker _ (by simp [pc,Worker.writing]) ?_ ?_ ?_
    · rintro k' intent' (hk | hk) <;> cases hk
      exact ⟨pos,ret⟩
    · intro intent' hx
      cases hx
      have hok := hr.queue.inv.pcs (.worker w k)
      rw [ret] at hok
      obtain ⟨-,x,hget⟩ := hok
      exact List.mem_map.mpr ⟨(x,intent),List.mem_of_getElem? hget,rfl⟩
    · intro k' pos' intent' hk hholds
      exact .inr (by simpa [pc,Worker.Holds] using hholds)
  | empty k pc ret =>
    refine h.setWorker _ (by simp [pc,Worker.writing]) (by simp) (by simp [Worker.hand]) ?_
    intro k' pos intent hk hholds
    obtain rfl : k = k' := by simpa [pc,Worker.Holds] using hholds
    simp [ret] at hk
  | exit k pc ret =>
    refine h.setWorker _ (by simp [pc,Worker.writing]) (by simp) (by simp [Worker.hand]) ?_
    intro k' pos intent hk hholds
    obtain rfl : k = k' := by simpa [pc,Worker.Holds] using hholds
    simp [ret] at hk
  | test k pc =>
    exact h.setWorker _ (by simp [pc,Worker.writing]) (by simp) (by simp [Worker.hand])
      (by simp [pc,Worker.Holds])
  | count k intent pc =>
    have hset := h.setWorker (w := w) (.mark k intent) (by simp [pc,Worker.writing]) ?_ ?_ ?_
    · exact { hset with }
    · rintro k' intent' (hk | hk) <;> cases hk
      exact h.fetched w k intent (.inl pc)
    · intro intent' hx
      cases hx
      exact h.hand w intent (by simp [pc,Worker.hand])
    · intro k' pos intent' _ hholds
      exact .inr (by simpa [pc,Worker.Holds] using hholds)
  | known k intent pc seen =>
    refine h.setWorker _ (by simp [pc,Worker.writing]) (by simp) (by simp [Worker.hand]) ?_
    intro k' pos intent' hk hholds
    obtain rfl : k = k' := by simpa [pc,Worker.Holds] using hholds
    obtain ⟨pos',hk'⟩ := h.fetched w k intent (.inr pc)
    rw [hk'] at hk
    cases hk
    exact .inl seen
  | dup k pc =>
    have hset := h.setWorker (w := w) (.tryDequeue (k+1) false) (by simp [pc,Worker.writing])
      (by simp) (by simp [Worker.hand]) (by simp [pc,Worker.Holds])
    exact { hset with }
  | mark k intent pc fresh =>
    refine ⟨List.nodup_cons.mpr ⟨fresh,h.nodup⟩,?_,?_,?_,h.taken,?_⟩
    · have hsum : ∑ v, (Function.update s.workers w (.write k intent) v).writing =
          ∑ v, (s.workers v).writing + {intent.requestId} :=
        sum_add_of_ne (i := w) (fun v hv => by simp [hv]) (by simp [pc,Worker.writing])
      have hw := h.written
      simp only [State.setWorker,hsum,← add_assoc,hw]
      rw [add_comm,Multiset.singleton_add,Multiset.cons_coe]
    · intro v k' intent' hv
      by_cases hvw : v = w
      · subst hvw
        simp [State.setWorker] at hv
      · exact h.fetched v k' intent' (by simpa [State.setWorker,hvw] using hv)
    · intro v intent' hv
      by_cases hvw : v = w
      · subst hvw
        obtain rfl : intent = intent' := by simpa [State.setWorker,Worker.hand] using hv
        exact h.hand v intent (by simp [pc,Worker.hand])
      · exact h.hand v intent' (by simpa [State.setWorker,hvw] using hv)
    · intro v k' pos intent' hv
      have hv' : s.queue.pc (.worker v k') = .deqReturn (some (pos,intent')) := hv
      rcases h.handled v k' pos intent' hv' with hs | hholds
      · exact .inl (List.mem_cons_of_mem _ hs)
      · by_cases hvw : v = w
        · subst hvw
          obtain rfl : k = k' := by simpa [pc,Worker.Holds] using hholds
          obtain ⟨pos',hk'⟩ := h.fetched v k intent (.inr pc)
          rw [hk'] at hv'
          cases hv'
          exact .inl (List.mem_cons_self ..)
        · right
          simpa [State.setWorker,hvw] using hholds
  | write k intent pc =>
    refine ⟨h.nodup,?_,?_,?_,?_,?_⟩
    · have hsum : ∑ v, (s.workers v).writing =
          ∑ v, (Function.update s.workers w (.tryDequeue (k+1) false) v).writing +
            {intent.requestId} :=
        sum_add_of_ne (i := w) (fun v hv => by simp [hv]) (by simp [pc,Worker.writing])
      have hw := h.written
      rw [hsum] at hw
      simp only [State.setWorker,List.map_append,List.map_cons,List.map_nil,← Multiset.coe_add,
        Multiset.coe_singleton]
      rw [← hw]
      abel
    · intro v k' intent' hv
      by_cases hvw : v = w
      · subst hvw
        simp [State.setWorker] at hv
      · exact h.fetched v k' intent' (by simpa [State.setWorker,hvw] using hv)
    · intro v intent' hv
      by_cases hvw : v = w
      · subst hvw
        simp [State.setWorker,Worker.hand] at hv
      · exact h.hand v intent' (by simpa [State.setWorker,hvw] using hv)
    · intro intent' hx
      rcases List.mem_append.mp hx with hx | hx
      · exact h.taken intent' hx
      · obtain rfl := List.mem_singleton.mp hx
        exact h.hand w intent' (by simp [pc,Worker.hand])
    · intro v k' pos intent' hv
      have hv' : s.queue.pc (.worker v k') = .deqReturn (some (pos,intent')) := hv
      refine (h.handled v k' pos intent' hv').imp id fun hholds => ?_
      by_cases hvw : v = w
      · subst hvw
        simp [pc,Worker.Holds] at hholds
      · simpa [State.setWorker,hvw] using hholds
  | call k recheck pc idle =>
    have hset := h.setWorker (w := w) (.dequeuing k recheck) (by simp [pc,Worker.writing])
      (by simp) (by simp [Worker.hand]) (by simp [pc,Worker.Holds])
    have hpc : (s.setWorker w (.dequeuing k recheck)).workers w = .dequeuing k recheck := by
      simp [State.setWorker]
    exact hset.setQueue hpc (fun x hx => MpmcQueue.State.goto_pc_of_ne hx) rfl
  | queue k recheck spurious q pc next =>
    exact h.setQueue pc (fun x hx => MpmcQueue.State.step_pc_of_ne next hx)
      (hr.producersSame (.queue k recheck spurious q pc next)).tickets

theorem reachable_marked (h : (system p c perProducer queueCap).Reachable s) : Marked s := by
  have hstep : ∀ s a s', (system p c perProducer queueCap).Reachable s → Marked s →
      (system p c perProducer queueCap).next s a = some s' → Marked s' := by
    intro s a s' hs hm hn
    have hr := reachable_roles hs
    cases a with
    | produce i draw spurious => exact hm.produce hr (State.produce_cases hn)
    | work w spurious => exact hm.work hr (State.work_cases hn)
    | main =>
      have hmain := State.main_cases hn
      cases hmain <;> exact { hm with }
  obtain ⟨s₀,as,hi,hrun⟩ := h
  refine (System.Reachable.of_init hi).invariant_run hstep hrun ?_
  obtain ⟨q,hq,rfl⟩ := hi
  exact create_marked hq

theorem Marked.written_perm (h : Marked s) (hexited : ∀ w, s.workers w = .exited) :
    (s.written.map (·.requestId)).Perm s.seen := by
  have hw := h.written
  simp only [hexited,Worker.writing,Finset.sum_const_zero,add_zero] at hw
  exact Multiset.coe_eq_coe.mp hw

theorem accepted_seen (h : (system p c perProducer queueCap).Reachable s) (he : s.main = .ended)
    (intent : OrderIntent) (hx : intent ∈ s.accepted) : intent.requestId ∈ s.seen := by
  have hm := reachable_marked h
  have hr := reachable_roles h
  obtain ⟨-,hexited⟩ := hr.ended he
  obtain ⟨⟨x,_⟩,hmem,rfl⟩ := List.mem_map.mp hx
  obtain ⟨t,ht⟩ := List.mem_iff_getElem?.mp hmem
  have hdrained := reachable_drained h 0 (.inl (hexited 0))
  have hlt : t < s.queue.takers.length := hdrained ▸ (List.getElem?_eq_some_iff.mp ht).1
  -- the call that took the ticket has returned, and its worker has marked the intent
  obtain ⟨y,hy⟩ : ∃ y, s.queue.takers[t]? = some y := ⟨_,List.getElem?_eq_getElem hlt⟩
  obtain ⟨pos,hpos,rfl⟩ := hr.queue.takers t y hy
  have hdeq : (s.queue.pc y).dequeuing := by
    cases hpc : s.queue.pc y <;> simp_all [MpmcQueue.Pc.dequeued,MpmcQueue.Pc.dequeuing]
  obtain ⟨w,k,rfl⟩ := hr.queue.consumers y hdeq
  have hret := (hr.working w k hdeq).resolve_right (by simp [hexited w])
  cases hpc : s.queue.pc (.worker w k) with
  | deqReturn won =>
    rw [hpc] at hpos
    cases won with
    | none => cases hpos
    | some taken =>
      obtain ⟨pos',intent'⟩ := taken
      cases hpos
      have hok := hr.queue.inv.pcs (.worker w k)
      rw [hpc] at hok
      obtain ⟨-,z,hz⟩ := hok
      rw [SizeT.val_nat] at ht hz
      rw [ht] at hz
      cases hz
      refine (hm.handled w k _ _ hpc).resolve_right ?_
      simp [hexited w,Worker.Holds]
  | _ => simp [hpc,MpmcQueue.Pc.dequeued,MpmcQueue.Pc.ret] at hpos hret

/-- Every request id is written at most once, and only for an intent that the queue
accepted; at the end every accepted id is written, and the rest of what was consumed is
counted as duplicates. -/
theorem written_once (h : (system p c perProducer queueCap).Reachable s) :
    (s.written.map (·.requestId)).Nodup ∧ (∀ intent ∈ s.written, intent ∈ s.accepted) ∧
    (s.main = .ended →
      (∀ intent ∈ s.accepted, intent.requestId ∈ s.written.map (·.requestId)) ∧
        s.consumedTotal = .ofNat s.written.length + s.idempotentDups) := by
  have hm := reachable_marked h
  have hr := reachable_roles h
  refine ⟨?_,hm.taken,fun he => ?_⟩
  · have hle : (s.written.map (·.requestId) : Multiset UInt64) ≤ s.seen := by
      rw [← hm.written]
      exact Multiset.le_add_right _ _
    exact Multiset.coe_nodup.mp (Multiset.nodup_of_le hle (Multiset.coe_nodup.mpr hm.nodup))
  · obtain ⟨-,hexited⟩ := hr.ended he
    have hperm := hm.written_perm hexited
    constructor
    · intro intent hx
      exact hperm.mem_iff.mpr (accepted_seen h he intent hx)
    · obtain ⟨-,consumed,dups,hk⟩ := reachable_counts h
      have hmarked := hk.marked
      simp only [hexited,Worker.unmarked,Finset.sum_const_zero,add_zero] at hmarked
      have hlen := hperm.length_eq
      rw [List.length_map] at hlen
      rw [hk.consumedTotal,hk.idempotentDups,hmarked,← hlen,UInt64.ofNat_add]

theorem written_once_repeat : repeatState.written.map (·.requestId) = [0,1] ∧
    repeatState.idempotentDups = 1 ∧
    repeatState.consumedTotal = .ofNat repeatState.written.length + repeatState.idempotentDups := by
  obtain ⟨hreach,hended,-,hwritten,-,hdups⟩ := repeatState_ended
  exact ⟨hwritten,hdups,((written_once hreach).2.2 hended).2⟩

section Repeats

theorem makeRequestId_toNat {i m : Nat} (hi : i < 2^32) (hm : m < 2^32) :
    (makeRequestId i (.ofNat m)).toNat = 2^32*i + m := by
  have hlow : (UInt64.ofNat m &&& 0xFFFFFFFF).toNat = m := by
    rw [UInt64.toNat_and,UInt64.toNat_ofNat',Nat.mod_eq_of_lt (by omega)]
    change m &&& (2^32 - 1) = m
    rw [Nat.and_two_pow_sub_one_eq_mod,Nat.mod_eq_of_lt hm]
  have hhigh : (i.toUInt32.toUInt64 <<< 32).toNat = i <<< 32 := by
    have hval : i.toUInt32.toUInt64.toNat = i := by
      rw [UInt32.toNat_toUInt64]
      exact Nat.mod_eq_of_lt hi
    rw [UInt64.toNat_shiftLeft,hval]
    change i <<< 32 % 2^64 = i <<< 32
    rw [Nat.shiftLeft_eq]
    omega
  rw [makeRequestId,UInt64.toNat_or,hlow,hhigh,← Nat.shiftLeft_add_eq_or_of_lt hm,Nat.shiftLeft_eq,
    Nat.mul_comm]

/-- The intent of a call is one that its turn can draw. -/
def Drawn (perProducer : Nat) : Caller p c → OrderIntent → Prop
  | .producer i k, intent => k < perProducer ∧ ∃ draw, intent = intentOf i k draw
  | .worker _ _, _ => False

structure Numbered (perProducer : Nat) (s : State p c) : Prop where
  carries : MpmcQueue.Carries (Drawn perProducer) s.queue
  drawn : ∀ i k intent, s.producers i = .enqueue k intent → Drawn (c := c) perProducer (.producer i k) intent

theorem Numbered.produce {i : Fin p} (h : Numbered perProducer s)
    (hs : ProducerStep perProducer s i s') : Numbered perProducer s' := by
  have hset : ∀ pc, (∀ k intent, pc = .enqueue k intent →
      Drawn (c := c) perProducer (.producer i k) intent) →
      Numbered perProducer (s.setProducer i pc) := by
    refine fun pc hpc => ⟨h.carries,fun j k intent hj => ?_⟩
    by_cases hji : j = i
    · subst hji
      exact hpc k intent (by simpa [State.setProducer] using hj)
    · exact h.drawn j k intent (by simpa [State.setProducer,hji] using hj)
  cases hs with
  | turn k draw pc lt =>
    have hnew := hset (.enqueue k (intentOf i k draw)) (by rintro k' intent ⟨⟩; exact ⟨lt,draw,rfl⟩)
    exact { hnew with }
  | finish k pc => exact hset .done (by simp)
  | call k intent pc idle =>
    have hq : s.queue.next (.enqueue (.producer i k) intent) =
        some (s.queue.goto (.producer i k) (.enqLoadPos intent)) := by
      simp [MpmcQueue.State.next,MpmcQueue.State.call,idle]
    have hnew := hset (.enqueuing k) (by simp)
    refine { hnew with carries := h.carries.next ?_ hq }
    rintro x data ⟨⟩
    exact h.drawn i k intent pc
  | queue k spurious q pc next =>
    have hq : s.queue.next (.step (.producer i k) spurious) = some q := next
    exact ⟨h.carries.next (by rintro x data ⟨⟩) hq,h.drawn⟩
  | returned k intent won pc ret => exact hset _ (by simp)
  | accepted k pc | rejected k pc =>
    have hnew := hset (.loop (k+1)) (by simp)
    exact { hnew with }

theorem reachable_numbered (h : (system p c perProducer queueCap).Reachable s) :
    Numbered perProducer s := by
  refine h.invariant ?_ ?_
  · rintro s ⟨q,hq,rfl⟩
    refine ⟨fun x data hx => ?_,by simp [start]⟩
    simp [start,(MpmcQueue.create_marks hq).2.2,MpmcQueue.Pc.item] at hx
  · intro s a s' hs hn
    cases a with
    | produce i draw spurious => exact hs.produce (State.produce_cases hn)
    | work w spurious =>
      have hw := State.work_cases hn
      cases hw with
      | call k recheck pc idle =>
        have hq : s.queue.next (.dequeue (.worker w k)) =
            some (s.queue.goto (.worker w k) .deqLoadPos) := by
          simp [MpmcQueue.State.next,MpmcQueue.State.call,idle]
        exact ⟨hs.carries.next (by rintro x data ⟨⟩) hq,hs.drawn⟩
      | queue k recheck spurious q pc next =>
        have hq : s.queue.next (.step (.worker w k) spurious) = some q := next
        exact ⟨hs.carries.next (by rintro x data ⟨⟩) hq,hs.drawn⟩
      | _ => exact ⟨hs.carries,hs.drawn⟩
    | main =>
      have hm := State.main_cases hn
      cases hm <;> exact ⟨hs.carries,hs.drawn⟩

def Caller.turn : Caller p c → Nat
  | .producer _ k | .worker _ k => k

theorem Drawn.turn {x : Caller p c} {intent : OrderIntent} (h : Drawn perProducer x intent)
    (hp : p ≤ 2^32) (hn : perProducer ≤ 2^32) :
    ∃ i : Fin p, x = .producer i x.turn ∧ i.val = intent.requestId.toNat/2^32 ∧
      (x.turn = intent.requestId.toNat%2^32 ∨ x.turn = intent.requestId.toNat%2^32 + 100) := by
  cases x with
  | worker w k => cases h
  | producer i k =>
    obtain ⟨hk,draw,rfl⟩ := h
    have hbase : baseSeq k draw.dup ≤ k ∧ (k = baseSeq k draw.dup ∨ k = baseSeq k draw.dup + 100) := by
      unfold baseSeq
      split <;> omega
    have hid : (intentOf i k draw).requestId.toNat = 2^32*i.val + baseSeq k draw.dup :=
      makeRequestId_toNat (by omega) (by omega)
    refine ⟨i,rfl,?_,?_⟩
    · rw [hid]
      omega
    · rw [hid]
      simp only [Caller.turn]
      omega

/-- An id is accepted at most twice: a turn repeats only the id of 100 turns before. -/
theorem accepted_le (h : (system p c perProducer queueCap).Reachable s) (hp : p ≤ 2^32)
    (hn : perProducer ≤ 2^32) :
    s.accepted.length ≤ 2*(s.accepted.map (·.requestId)).toFinset.card := by
  have hinv := (reachable_roles h).queue.inv
  have hcarries := (reachable_numbered h).carries
  have hdrawn : ∀ e ∈ s.queue.tickets, Drawn perProducer e.1 e.2 := by
    intro e he
    obtain ⟨t,ht⟩ := List.mem_iff_getElem?.mp he
    exact hinv.tickets_carry hcarries ht
  have hnodup := hinv.tickets_nodup
  have hinj : ∀ e ∈ s.queue.tickets, ∀ f ∈ s.queue.tickets, e.1 = f.1 → e = f :=
    fun e he f hf => List.inj_on_of_nodup_map hnodup he hf
  have hcard : s.queue.tickets.toFinset.card = s.accepted.length := by
    rw [List.toFinset_card_of_nodup (List.Nodup.of_map _ hnodup),State.accepted,List.length_map]
  have himage : s.queue.tickets.toFinset.image (fun e => e.2.requestId) =
      (s.accepted.map (·.requestId)).toFinset := by
    ext x
    simp [State.accepted]
  rw [← hcard,← himage]
  refine Finset.card_le_mul_card_image _ 2 fun x _ => ?_
  -- the turns of the tickets with one id tell them apart, and there are two such turns
  have hturns : ((s.queue.tickets.toFinset.filter fun e => e.2.requestId = x).image
      fun e => e.1.turn) ⊆ {x.toNat%2^32,x.toNat%2^32 + 100} := by
    intro k hk
    obtain ⟨e,hmem,rfl⟩ := Finset.mem_image.mp hk
    obtain ⟨he,rfl⟩ := Finset.mem_filter.mp hmem
    obtain ⟨i,-,-,hturn⟩ := (hdrawn e (List.mem_toFinset.mp he)).turn hp hn
    simpa using hturn
  refine le_trans ?_ ((Finset.card_le_card hturns).trans Finset.card_le_two)
  rw [Finset.card_image_of_injOn]
  intro e he f hf hk
  obtain ⟨he,hex⟩ := Finset.mem_filter.mp he
  obtain ⟨hf,hfx⟩ := Finset.mem_filter.mp hf
  rw [List.mem_toFinset] at he hf
  obtain ⟨i,hi,hival,-⟩ := (hdrawn e he).turn hp hn
  obtain ⟨j,hj,hjval,-⟩ := (hdrawn f hf).turn hp hn
  refine hinj e he f hf ?_
  obtain rfl : i = j := Fin.ext (by rw [hival,hjval,hex,hfx])
  rw [hi,hj]
  exact congrArg _ hk

/-- At the end at least half of the accepted intents are written. -/
theorem half_written (h : (system p c perProducer queueCap).Reachable s) (hp : p ≤ 2^32)
    (hn : perProducer ≤ 2^32) (he : s.main = .ended) :
    s.accepted.length ≤ 2*s.written.length := by
  have hm := reachable_marked h
  obtain ⟨-,hexited⟩ := (reachable_roles h).ended he
  have hlen := (hm.written_perm hexited).length_eq
  have hsub : (s.accepted.map (·.requestId)).toFinset ⊆ s.seen.toFinset := by
    intro x hx
    obtain ⟨intent,hmem,rfl⟩ := List.mem_map.mp (List.mem_toFinset.mp hx)
    exact List.mem_toFinset.mpr (accepted_seen h he intent hmem)
  have hcard := Finset.card_le_card hsub
  rw [List.toFinset_card_of_nodup hm.nodup,← hlen,List.length_map] at hcard
  have haccepted := accepted_le h hp hn
  omega

theorem half_written_repeat : repeatState.accepted.map (·.requestId) = [0,1,1] ∧
    repeatState.accepted.length ≤ 2*repeatState.written.length := by
  obtain ⟨hreach,hended,haccepted,-⟩ := repeatState_ended
  exact ⟨haccepted,half_written hreach (by decide) (by decide) hended⟩

end Repeats

end Flashsale.OrderWorker
