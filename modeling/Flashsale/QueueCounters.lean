import Flashsale.Flow
import Flashsale.Tally
import Mathlib
set_option autoImplicit false

namespace Flashsale.MpmcQueue
variable {W T ι : Type} [DecidableEq ι] [SizeT W] [DecidableEq W] {q q' : State W T ι} {c : ι}

theorem State.step_enqueued {spurious : Bool} (h : q.step c spurious = some q') :
    (q'.tickets = q.tickets ∧ (q'.pc c).enqueued.isSome = (q.pc c).enqueued.isSome) ∨
      ∃ data, q'.tickets = q.tickets ++ [(c,data)] ∧ (q.pc c).enqueued = none ∧
        (q'.pc c).enqueued.isSome := by
  unfold State.step at h
  cases hp : q.pc c with
  | idle | enqReturn _ _ | deqReturn _ => simp [hp] at h
  | enqLoadPos data | enqWrite data pos | enqStoreSeq data pos | deqLoadPos | deqRead pos
  | deqStoreSeq pos data =>
    simp only [hp,Option.some.injEq] at h
    subst h
    exact .inl ⟨rfl,by rw [State.goto_pc_self]; rfl⟩
  | enqLoadSeq data pos | deqLoadSeq pos =>
    simp only [hp,Option.some.injEq] at h
    subst h
    refine .inl ⟨rfl,?_⟩
    rw [State.goto_pc_self]
    split <;> [rfl; split <;> rfl]
  | enqCas data pos =>
    simp only [hp] at h
    split at h
    · cases h
      exact .inr ⟨data,rfl,rfl,by rw [State.goto_pc_self]; rfl⟩
    · cases h
      exact .inl ⟨rfl,by rw [State.goto_pc_self]; rfl⟩
  | deqCas pos =>
    simp only [hp] at h
    split at h
    · cases h
      exact .inl ⟨rfl,by rw [State.goto_pc_self]; rfl⟩
    · cases h
      exact .inl ⟨rfl,by rw [State.goto_pc_self]; rfl⟩

end Flashsale.MpmcQueue

namespace Flashsale.Engine
open Transition
variable {κ : Type}

/-- An item of `EnqueueRequest` or `EnqueueBatch`, which count it. -/
def Caller.isOnce : Caller κ → Bool
  | .client .once _ _ => true
  | _ => false

def State.requestsIn (e : State κ) : Nat :=
  ∑ i, (e.shards i).queue.tickets.countP fun x => x.1.isOnce

def State.signalsIn (e : State κ) : Nat :=
  ∑ i, (e.shards i).queue.tickets.countP fun x => ¬ x.1.isOnce

def Shard.holding (s : Shard κ) : Bool :=
  match s.dispatcher with
  | .dequeue k => (s.queue.pc (.dispatcher k)).dequeued.isSome
  | _ => false

def Shard.uncounted (s : Shard κ) : Nat :=
  (s.queue.tickets.length - s.queue.takers.length) + s.holding.toNat

def State.uncounted (e : State κ) : Nat := ∑ i, (e.shards i).uncounted

/-- An enqueue call in progress: `EnqueueRequest`, `EnqueueBatch`, or the loop of enqueues
of `WarmUpEngine` or of `WaitEngineDrained`. -/
def Call.Entering : Call → Prop
  | .requestTestRunning _ | .batchTestRunning _ | .warmUpTestRunning | .testFlag _ => True
  | .enqueue _ | .enqueuing _ | .count _ => True
  | _ => False

/-- The difference of the totals is what is not counted as dequeued, and they are equal
where every queue is empty and no dispatcher holds an uncounted item. -/
structure Balanced (e : State κ) : Prop where
  difference : e.enqueueCount = e.dequeueCount + UInt64.ofNat e.uncounted
  drained : (∀ i, (e.shards i).queue.tickets.length = (e.shards i).queue.takers.length ∧
    (e.shards i).holding = false) → e.enqueueCount = e.dequeueCount

def Uncounted (e : State κ) (c : κ) : Prop :=
  match e.calls c with
  | .enqueuing p => p.purpose = .once ∧
      ∃ x ∈ p.todo.head?, ((e.shards x.1).queue.pc (p.caller c)).enqueued.isSome
  | .count _ => True
  | _ => False

theorem Balanced.of_difference {e : State κ}
    (h : e.enqueueCount = e.dequeueCount + UInt64.ofNat e.uncounted) : Balanced e where
  difference := h
  drained hd := by
    have hnone : e.uncounted = 0 := Finset.sum_eq_zero fun i _ => by
      simp [Shard.uncounted,(hd i).1,(hd i).2]
    rw [h,hnone]
    exact UInt64.add_zero _

/-- What the two totals have counted since a start at `n`. -/
structure Counters (n : UInt64) (e : State κ) : Prop where
  enqueued : ∃ calls : Finset κ, (∀ c, c ∈ calls ↔ Uncounted e c) ∧
    e.enqueueCount + UInt64.ofNat calls.card = n + UInt64.ofNat e.requestsIn
  dequeued : e.dequeueCount + UInt64.ofNat (∑ i, (e.shards i).holding.toNat) =
    n + UInt64.ofNat (∑ i, (e.shards i).queue.takers.length)

theorem Uncounted.entering {e : State κ} {c : κ} (h : Uncounted e c) : (e.calls c).Entering := by
  unfold Uncounted at h
  split at h <;> simp_all [Call.Entering]

def Act.Signals : Act κ → Prop
  | .start _ .warmUpEngine | .start _ .waitEngineDrained => True
  | _ => False

def Call.Requesting : Call → Prop
  | .warmUpTestRunning | .enterDrain _ | .resetBarrier _ => False
  | .enqueue p | .enqueuing p | .count p => p.purpose = .once
  | _ => True

/-- Only requests got in, and nothing else is about to. -/
structure Requests (e : State κ) : Prop where
  calls : ∀ c, (e.calls c).Requesting
  signals : e.signalsIn = 0

section Totals
variable {e : State κ} {n : UInt64}

theorem requestsIn_add_signalsIn (e : State κ) :
    e.requestsIn + e.signalsIn = ∑ i, (e.shards i).queue.tickets.length := by
  rw [State.requestsIn,State.signalsIn,← Finset.sum_add_distrib]
  refine Finset.sum_congr rfl fun i _ => ?_
  have h := (e.shards i).queue.tickets.length_eq_countP_add_countP fun x => x.1.isOnce
  simpa using h.symm

theorem takers_add_uncounted (hf : ∀ i, Fifo (e.shards i)) :
    ∑ i, (e.shards i).queue.takers.length + e.uncounted =
      ∑ i, (e.shards i).queue.tickets.length + ∑ i, (e.shards i).holding.toNat := by
  rw [State.uncounted,← Finset.sum_add_distrib,← Finset.sum_add_distrib]
  refine Finset.sum_congr rfl fun i _ => ?_
  have hle := (hf i).ingress.order
  simp only [Shard.uncounted]
  omega

/-- Where every call has counted, the difference is off by the items that nobody counts. -/
theorem Counters.difference_iff (h : Counters n e) (hf : ∀ i, Fifo (e.shards i))
    (hq : ∀ c, ¬ Uncounted e c) :
    e.enqueueCount = e.dequeueCount + UInt64.ofNat e.uncounted ↔ 2^64 ∣ e.signalsIn := by
  obtain ⟨calls,hcalls,hin⟩ := h.enqueued
  have hnone : calls = ∅ := Finset.eq_empty_of_forall_notMem fun c hc => hq c ((hcalls c).mp hc)
  rw [hnone,Finset.card_empty] at hin
  have hin : e.enqueueCount = n + UInt64.ofNat e.requestsIn := by simpa using hin
  have hout := h.dequeued
  have htickets := requestsIn_add_signalsIn e
  have htakers := takers_add_uncounted hf
  generalize ∑ i, (e.shards i).queue.tickets.length = a at htickets htakers
  generalize ∑ i, (e.shards i).queue.takers.length = b at hout htakers
  generalize ∑ i, (e.shards i).holding.toNat = d at hout htakers
  generalize e.uncounted = u at htakers ⊢
  simp only [← UInt64.toNat_inj,UInt64.toNat_add,UInt64.toNat_ofNat'] at hin hout ⊢
  omega

end Totals

inductive EnqueueMove (e e' : State κ) : Prop where
  | quiet (count : e'.enqueueCount = e.enqueueCount) (items : e'.requestsIn = e.requestsIn)
      (calls : ∀ c, Uncounted e' c ↔ Uncounted e c)
  | won (c : κ) (count : e'.enqueueCount = e.enqueueCount)
      (items : e'.requestsIn = e.requestsIn + 1) (before : ¬ Uncounted e c)
      (calls : ∀ c', Uncounted e' c' ↔ c' = c ∨ Uncounted e c')
  | counted (c : κ) (count : e'.enqueueCount = e.enqueueCount + 1)
      (items : e'.requestsIn = e.requestsIn) (before : Uncounted e c)
      (calls : ∀ c', Uncounted e' c' ↔ c' ≠ c ∧ Uncounted e c')

section Enqueue
variable {e e' : State κ} {c : κ} {p : Push}

theorem requestsIn_congr (h : ∀ i, (e'.shards i).queue.tickets = (e.shards i).queue.tickets) :
    e'.requestsIn = e.requestsIn := by simp only [State.requestsIn,h]

theorem uncounted_congr (hc : e'.calls c = e.calls c)
    (hpc : ∀ i k, (e'.shards i).queue.pc (.client .once c k) =
      (e.shards i).queue.pc (.client .once c k)) : Uncounted e' c ↔ Uncounted e c := by
  unfold Uncounted
  rw [hc]
  split
  · refine and_congr_right fun hp => exists_congr fun x => and_congr_right fun _ => ?_
    rw [Push.caller,hp,hpc]
  · rfl
  · rfl

theorem not_uncounted (h : ∀ p, e.calls c ≠ .enqueuing p ∧ e.calls c ≠ .count p) :
    ¬ Uncounted e c := by
  unfold Uncounted
  split
  · exact absurd ‹_› (h _).1
  · exact absurd ‹_› (h _).2
  · exact id

theorem uncounted_enqueuing {i : ShardId} {req : Request} {rest : List (ShardId × Request)}
    (pc : e.calls c = .enqueuing p) (todo : p.todo = (i,req) :: rest) : Uncounted e c ↔
      p.purpose = .once ∧ ((e.shards i).queue.pc (p.caller c)).enqueued.isSome := by
  simp [Uncounted,pc,todo]

theorem requestsIn_accept {i : ShardId} {data : Request}
    (hi : (e'.shards i).queue.tickets = (e.shards i).queue.tickets ++ [(p.caller c,data)])
    (hne : ∀ j, j ≠ i → (e'.shards j).queue.tickets = (e.shards j).queue.tickets) :
    e'.requestsIn = e.requestsIn + if p.purpose = .once then 1 else 0 := by
  refine sum_add_of_ne (i := i) (fun j hj => by rw [hne j hj]) ?_
  rw [hi,List.countP_append,List.countP_singleton]
  cases hp : p.purpose <;> simp [Push.caller,Caller.isOnce,hp]

variable [DecidableEq κ]

theorem State.client_enqueueMove {now : Int64} {spurious : Bool}
    (hn : e.next (.client c now spurious) = some e') : EnqueueMove e e' := by
  have hstep := State.client_cases hn
  have hother : ∀ c', c' ≠ c → (Uncounted e' c' ↔ Uncounted e c') := fun c' hne =>
    uncounted_congr (hstep.calls_of_ne hne) fun i k => State.next_other_pc hn
      (fun now spurious ha => by cases ha; exact hne rfl) i .once k
  have hquiet : e'.enqueueCount = e.enqueueCount → e'.requestsIn = e.requestsIn →
      (Uncounted e' c ↔ Uncounted e c) → EnqueueMove e e' := fun hcount hitems hown =>
    .quiet hcount hitems fun c' => by
      by_cases he : c' = c
      · rw [he]
        exact hown
      · exact hother c' he
  have hneither : e'.enqueueCount = e.enqueueCount → e'.requestsIn = e.requestsIn →
      ¬ Uncounted e' c → ¬ Uncounted e c → EnqueueMove e e' := fun hcount hitems hafter hbefore =>
    hquiet hcount hitems (iff_of_false hafter hbefore)
  cases hstep with
  | @attempt p i req rest q pc todo next =>
    obtain ⟨-,rfl⟩ := MpmcQueue.State.call_eq next
    refine hneither rfl (requestsIn_congr fun j => ?_) ?_ (not_uncounted (by simp [pc]))
    · by_cases hj : j = i
      · subst hj
        simp [State.setCall,MpmcQueue.State.goto]
      · simp [State.setCall,State.setShard_shards_of_ne hj]
    · rw [uncounted_enqueuing (State.setCall_calls_self ..) todo]
      simp [State.setCall,MpmcQueue.Pc.enqueued]
  | @access p i req rest q pc todo next =>
    have hbefore := uncounted_enqueuing (e := e) pc todo
    have hafter := uncounted_enqueuing (e := e.setShard i { e.shards i with queue := q }) pc todo
    rw [State.setShard_shards_self] at hafter
    have hne : ∀ j, j ≠ i → ((e.setShard i { e.shards i with queue := q }).shards j).queue.tickets =
        (e.shards j).queue.tickets := fun j hj => by rw [State.setShard_shards_of_ne hj]
    rcases MpmcQueue.State.step_enqueued next with ⟨htickets,hsame⟩ | ⟨data,htickets,hnone,hsome⟩
    · refine hquiet rfl (requestsIn_congr fun j => ?_) ?_
      · by_cases hj : j = i
        · subst hj
          rw [State.setShard_shards_self]
          exact htickets
        · exact hne j hj
      · rw [hafter,hbefore]
        exact and_congr_right fun _ => by rw [hsame]
    · have hself : ((e.setShard i { e.shards i with queue := q }).shards i).queue.tickets =
          (e.shards i).queue.tickets ++ [(p.caller c,data)] := by
        rw [State.setShard_shards_self]
        exact htickets
      have hin := requestsIn_accept hself hne
      by_cases hp : p.purpose = .once
      · rw [if_pos hp] at hin
        refine .won c rfl hin (by simp [hbefore,hnone]) fun c' => ?_
        by_cases he : c' = c
        · subst he
          simp [hafter,hp,hsome]
        · simp [he,hother c' he]
      · rw [if_neg hp] at hin
        exact hneither rfl hin (by simp [hafter,hp]) (by simp [hbefore,hp])
  | @accepted p i req data rest t pc todo ret =>
    refine hquiet rfl rfl ?_
    rw [uncounted_enqueuing pc todo,ret]
    by_cases hp : p.purpose = .once
    · simp [Uncounted,State.setCall_calls_self,hp,MpmcQueue.Pc.enqueued]
    · simp [Uncounted,State.setCall_calls_self,hp]
  | @full p i req data rest pc todo ret =>
    refine hneither rfl rfl (not_uncounted (by simp [State.setCall_calls_self])) ?_
    rw [uncounted_enqueuing pc todo,ret]
    simp [MpmcQueue.Pc.enqueued]
  | @count p pc =>
    have hbefore : Uncounted e c := by simp [Uncounted,pc]
    refine .counted c rfl rfl hbefore fun c' => ?_
    by_cases he : c' = c
    · subst he
      exact iff_of_false (not_uncounted (by simp [State.setCall_calls_self])) (by simp)
    · simp [he,hother c' he]
  | poll pc next => exact hneither rfl rfl (not_uncounted (by simp [pc])) (not_uncounted (by simp [pc]))
  | requestTest pc | batchTest pc | warmUpTest pc =>
    refine hneither rfl rfl (not_uncounted ?_) (not_uncounted (by simp [pc]))
    rw [State.setCall_calls_self]
    split <;> simp
  | finish pc todo =>
    refine hneither rfl rfl (not_uncounted ?_) (not_uncounted (by simp [pc]))
    rw [State.setCall_calls_self,Push.done]
    split <;> simp
  | soldOut pc _ | available pc _ | reentered pc _ | enter pc _ | reset pc | reached pc _
  | waiting pc _ | stillRunning pc _ | stopped pc _ | leave pc | polled pc _ =>
    exact hneither rfl rfl (not_uncounted (by simp [State.setCall_calls_self]))
      (not_uncounted (by simp [pc]))

theorem State.next_counts {a : Act κ} (hn : e.next a = some e') :
    ((∀ c now spurious, a ≠ .client c now spurious) → e'.enqueueCount = e.enqueueCount) ∧
    ((∀ i pop push spurious, a ≠ .dispatch i pop push spurious) → e'.dequeueCount = e.dequeueCount) := by
  cases a with
  | client c now spurious =>
    refine ⟨fun ha => absurd rfl (ha c now spurious),fun _ => ?_⟩
    cases State.client_cases hn <;> rfl
  | dispatch i pop push spurious =>
    refine ⟨fun _ => ?_,fun ha => absurd rfl (ha i pop push spurious)⟩
    simp only [State.next,State.dispatch] at hn
    repeat' split at hn
    all_goals first
      | (obtain ⟨q,-,rfl⟩ := Option.map_eq_some_iff.mp hn; rfl)
      | (cases hn <;> rfl)
  | work i inp =>
    obtain ⟨s,-,rfl⟩ := Option.map_eq_some_iff.mp hn
    exact ⟨fun _ => rfl,fun _ => rfl⟩
  | stop =>
    simp only [State.next,State.stopEngine] at hn
    repeat' split at hn
    all_goals cases hn
    all_goals exact ⟨fun _ => rfl,fun _ => rfl⟩
  | start c f =>
    simp only [State.next,State.start] at hn
    repeat' split at hn
    all_goals first
      | (obtain ⟨q,-,rfl⟩ := Option.map_eq_some_iff.mp hn; exact ⟨fun _ => rfl,fun _ => rfl⟩)
      | (cases hn <;> exact ⟨fun _ => rfl,fun _ => rfl⟩)

theorem State.start_not_uncounted {f : Api} (hs : e.start c f = some e') : ¬ Uncounted e' c := by
  refine not_uncounted ?_
  unfold State.start at hs
  split at hs
  · cases f with
    | pollResult =>
      obtain ⟨q,-,rfl⟩ := Option.map_eq_some_iff.mp hs
      simp [State.setCall_calls_self]
    | _ =>
      cases hs
      simp [State.setCall_calls_self]
  · cases hs

theorem State.next_enqueueMove {a : Act κ} (hf : ∀ i, Fifo (e.shards i))
    (hn : e.next a = some e') : EnqueueMove e e' := by
  by_cases ha : ∃ c now spurious, a = .client c now spurious
  · obtain ⟨c,now,spurious,rfl⟩ := ha
    exact State.client_enqueueMove hn
  have hother : ∀ c now spurious, a ≠ .client c now spurious := fun c now spurious he =>
    ha ⟨c,now,spurious,he⟩
  refine .quiet ((State.next_counts hn).1 hother) (requestsIn_congr fun i => ?_) fun c => ?_
  · generalize hs : e'.shards i = s'
    cases hs ▸ State.next_flow hf hn i with
    | quiet tickets _ => exact tickets
    | accept => exact absurd rfl (hother _ _ _)
    | process _ queue _ => rw [queue]
  · rcases State.next_calls hn c with he | ⟨f,-,hidle,hs⟩ | ⟨now,spurious,he,-⟩
    · exact uncounted_congr he fun i k => State.next_other_pc hn (hother c) i .once k
    · exact iff_of_false (State.start_not_uncounted hs) (not_uncounted (by simp [hidle]))
    · exact absurd he (hother c now spurious)

end Enqueue

/-- What a step does to the items popped, and to the one in the dispatcher's hand: `a` are
popped and `b` counted. -/
inductive PopStep (s s' : Shard κ) : Nat → Nat → Prop where
  | quiet (takers : s'.queue.takers = s.queue.takers) (holding : s'.holding = s.holding) :
      PopStep s s' 0 0
  | took (takers : s'.queue.takers.length = s.queue.takers.length + 1)
      (before : s.holding = false) (after : s'.holding = true) : PopStep s s' 1 0
  | counted (takers : s'.queue.takers = s.queue.takers) (before : s.holding = true)
      (after : s'.holding = false) : PopStep s s' 0 1

theorem PopStep.of_effect {s : Shard κ} {q : MpmcQueue.State Nat Request (Caller κ)} {k : Nat}
    (hd : s.dispatcher = .dequeue k) (hdeq : (s.queue.pc (.dispatcher k)).dequeuing)
    (h : MpmcQueue.Effect s.queue q (.dispatcher k)) :
    ∃ a, PopStep s { s with queue := q } a 0 := by
  cases h with
  | quiet _ takers dequeued => exact ⟨0,.quiet takers (by simp [Shard.holding,hd,dequeued])⟩
  | won data item =>
    rw [MpmcQueue.Pc.item_eq_none_of_dequeuing hdeq] at item
    cases item
  | took _ before after _ takers =>
    refine ⟨1,.took ?_ ?_ ?_⟩
    · simp [takers]
    · simp [Shard.holding,hd,before]
    · simp [Shard.holding,hd,after]

theorem Shard.holding_congr {s s' : Shard κ} (hd : s'.dispatcher = s.dispatcher)
    (hpc : ∀ k, s'.queue.pc (.dispatcher k) = s.queue.pc (.dispatcher k)) :
    s'.holding = s.holding := by
  unfold Shard.holding
  rw [hd]
  split <;> simp [hpc]

theorem PopStep.takers {s s' : Shard κ} {a b : Nat} (h : PopStep s s' a b) :
    s'.queue.takers.length = s.queue.takers.length + a := by
  cases h with
  | quiet takers _ | counted takers _ _ => simp [takers]
  | took takers _ _ => exact takers

theorem PopStep.holding {s s' : Shard κ} {a b : Nat} (h : PopStep s s' a b) :
    s'.holding.toNat + b = s.holding.toNat + a := by
  cases h with
  | quiet _ holding => rw [holding]
  | took _ before after => simp [before,after]
  | counted _ before after => simp [before,after]

section Dequeue
variable [DecidableEq κ] {e e' : State κ} {i : ShardId} {a : Act κ}

theorem State.dispatch_pop {pop push : Int64} {spurious : Bool} (hf : Fifo (e.shards i))
    (h : e.dispatch i pop push spurious = some e') : ∃ a b, PopStep (e.shards i) (e'.shards i) a b ∧
      (∀ j, j ≠ i → e'.shards j = e.shards j) ∧
      e'.dequeueCount = e.dequeueCount + UInt64.ofNat b := by
  have hzero : e.dequeueCount = e.dequeueCount + UInt64.ofNat 0 := (UInt64.add_zero _).symm
  unfold State.dispatch at h
  cases hd : (e.shards i).dispatcher with
  | loop k =>
    have hbefore : (e.shards i).holding = false := by simp [Shard.holding,hd]
    simp only [hd] at h
    split at h
    · obtain ⟨q,hq,rfl⟩ := Option.map_eq_some_iff.mp h
      obtain ⟨-,rfl⟩ := MpmcQueue.State.call_eq hq
      refine ⟨0,0,.quiet ?_ ?_,fun j hj => State.setShard_shards_of_ne hj,hzero⟩
      · simp [MpmcQueue.State.goto]
      · rw [hbefore,State.setShard_shards_self]
        simp [Shard.holding,MpmcQueue.Pc.dequeued]
    · cases h
      refine ⟨0,0,.quiet ?_ ?_,fun j hj => State.setShard_shards_of_ne hj,hzero⟩
      · simp
      · rw [hbefore,State.setShard_shards_self]
        rfl
  | dequeue k =>
    have hhand : HandOk (e.shards i) (.dequeue k) := hd ▸ hf.hand
    simp only [hd] at h
    split at h
    · rename_i hpc
      cases h
      refine ⟨0,0,.quiet ?_ ?_,fun j hj => State.setShard_shards_of_ne hj,hzero⟩
      · simp
      · simp [Shard.holding,hd,hpc,MpmcQueue.Pc.dequeued]
    · rename_i hpc
      obtain ⟨q,-,rfl⟩ := Option.map_eq_some_iff.mp h
      refine ⟨0,1,.counted ?_ ?_ ?_,fun j hj => State.setShard_shards_of_ne hj,rfl⟩
      · simp
      · simp [Shard.holding,hd,hpc,MpmcQueue.Pc.dequeued]
      · simp [Shard.holding]
    · obtain ⟨q,hq,rfl⟩ := Option.map_eq_some_iff.mp h
      obtain ⟨a,ha⟩ := PopStep.of_effect hd hhand.1 (MpmcQueue.State.step_effect hq).2.2
      refine ⟨a,0,?_,fun j hj => State.setShard_shards_of_ne hj,hzero⟩
      rw [State.setShard_shards_self,← hd]
      exact ha
  | push k wreq =>
    have hbefore : (e.shards i).holding = false := by simp [Shard.holding,hd]
    simp only [hd] at h
    split at h
    · cases h
      refine ⟨0,0,.quiet ?_ ?_,fun j hj => State.setShard_shards_of_ne hj,hzero⟩
      · simp
      · rw [hbefore,State.setShard_shards_self]
        rfl
    all_goals
      obtain ⟨q,-,rfl⟩ := Option.map_eq_some_iff.mp h
      refine ⟨0,0,.quiet ?_ ?_,fun j hj => State.setShard_shards_of_ne hj,hzero⟩
      · simp
      · simp [Shard.holding,hd]
  | exited => simp [hd] at h

theorem ShardStep.pop_quiet {s' : Shard κ} (hf : Fifo (e.shards i)) (hs : ShardStep e i a s')
    (ha : ∀ pop push spurious, a ≠ .dispatch i pop push spurious) : PopStep (e.shards i) s' 0 0 := by
  cases hs with
  | enqueue _ _ _ _ hn =>
    obtain ⟨-,rfl⟩ := MpmcQueue.State.call_eq hn
    refine .quiet rfl (Shard.holding_congr rfl fun k => ?_)
    exact MpmcQueue.State.goto_pc_of_ne (by simp [Push.caller])
  | @attempt c p req todo q _ _ _ _ hn =>
    have hhold : Shard.holding { e.shards i with queue := q } = (e.shards i).holding :=
      Shard.holding_congr rfl fun k => MpmcQueue.State.step_pc_of_ne hn (by simp [Push.caller])
    cases (MpmcQueue.State.step_effect hn).2.2 with
    | quiet _ takers _ => exact .quiet takers hhold
    | won _ _ _ takers => exact .quiet takers hhold
    | took dequeuing =>
      obtain ⟨k,hk⟩ := hf.consumers _ dequeuing
      cases hk
  | work | stop => exact .quiet rfl rfl
  | _ => exact absurd rfl (ha _ _ _)

theorem State.next_popMove (hf : ∀ i, Fifo (e.shards i)) (hn : e.next a = some e') :
    ∃ a b, e'.dequeueCount = e.dequeueCount + UInt64.ofNat b ∧
      ∑ i, (e'.shards i).queue.takers.length = ∑ i, (e.shards i).queue.takers.length + a ∧
      ∑ i, (e'.shards i).holding.toNat + b = ∑ i, (e.shards i).holding.toNat + a := by
  by_cases ha : ∃ i pop push spurious, a = .dispatch i pop push spurious
  · obtain ⟨i,pop,push,spurious,rfl⟩ := ha
    obtain ⟨m,k,hpop,hne,hcount⟩ := State.dispatch_pop (hf i) hn
    refine ⟨m,k,hcount,?_,?_⟩
    · exact sum_add_of_ne (i := i) (fun j hj => by rw [hne j hj]) hpop.takers
    · have hi : ((e'.shards i).holding.toNat : Int) = (e.shards i).holding.toNat + (m - k) := by
        have := hpop.holding
        omega
      have hsum := sum_add_of_ne (f := fun j => ((e'.shards j).holding.toNat : Int))
        (g := fun j => ((e.shards j).holding.toNat : Int)) (fun j hj => by simp only [hne j hj]) hi
      push_cast [← Nat.cast_sum] at hsum
      omega
  · have hother : ∀ i pop push spurious, a ≠ .dispatch i pop push spurious :=
      fun i pop push spurious he => ha ⟨i,pop,push,spurious,he⟩
    have hquiet : ∀ i, PopStep (e.shards i) (e'.shards i) 0 0 := by
      intro i
      rcases State.next_shard hn i with hs | hs
      · rw [hs]
        exact .quiet rfl rfl
      · exact hs.pop_quiet (hf i) (hother i)
    refine ⟨0,0,?_,?_,?_⟩
    · rw [(State.next_counts hn).2 hother]
      exact (UInt64.add_zero _).symm
    · exact Finset.sum_congr rfl fun i _ => (hquiet i).takers
    · have hhold := fun i => (hquiet i).holding
      simp only [Nat.add_zero] at hhold ⊢
      exact Finset.sum_congr rfl fun i _ => hhold i

end Dequeue

section Runs
variable [DecidableEq κ] {e e' : State κ} {a : Act κ} {as : List (Act κ)} {n : UInt64}
  {sold barrier : UInt64}

omit [DecidableEq κ] in
theorem initEngine_counters : Counters n (initEngine sold n n barrier : State κ) where
  enqueued := ⟨∅,fun c => by simp [Uncounted,initEngine],by
    simp [initEngine,State.requestsIn,startShard,MpmcQueue.create]⟩
  dequeued := by simp [initEngine,Shard.holding,startShard,MpmcQueue.create]

theorem Counters.next (h : Counters n e) (hf : ∀ i, Fifo (e.shards i)) (hn : e.next a = some e') :
    Counters n e' where
  enqueued := by
    obtain ⟨calls,hcalls,hcount⟩ := h.enqueued
    cases State.next_enqueueMove hf hn with
    | quiet count items same =>
      refine ⟨calls,fun c => (hcalls c).trans (same c).symm,?_⟩
      rw [count,items]
      exact hcount
    | won c count items before after =>
      have hc : c ∉ calls := fun hc => before ((hcalls c).mp hc)
      refine ⟨insert c calls,fun c' => ?_,?_⟩
      · rw [Finset.mem_insert,hcalls,after]
      · rw [Finset.card_insert_of_notMem hc,count,items,UInt64.ofNat_add,UInt64.ofNat_add,
          ← UInt64.add_assoc,← UInt64.add_assoc,hcount]
    | counted c count items before after =>
      have hc : c ∈ calls := (hcalls c).mpr before
      refine ⟨calls.erase c,fun c' => ?_,?_⟩
      · rw [Finset.mem_erase,hcalls,after]
      · have hcard := Finset.card_erase_add_one hc
        rw [← hcard,UInt64.ofNat_add] at hcount
        rw [count,items,← hcount,UInt64.add_assoc,UInt64.add_comm 1]
        rfl
  dequeued := by
    obtain ⟨m,k,hcount,htakers,hholding⟩ := State.next_popMove hf hn
    have hold := h.dequeued
    rw [hcount,htakers,UInt64.ofNat_add,← UInt64.add_assoc,← hold,UInt64.add_assoc,UInt64.add_assoc,
      ← UInt64.ofNat_add,← UInt64.ofNat_add,Nat.add_comm k,hholding]

omit [DecidableEq κ] in
theorem initEngine_requests : Requests (initEngine sold n n barrier : State κ) where
  calls _ := trivial
  signals := by simp [State.signalsIn,initEngine,startShard,MpmcQueue.create]

theorem initEngine_reachable : system.Reachable (initEngine sold n n barrier : State κ) :=
  .of_init ⟨sold,n,n,barrier,rfl⟩

theorem run_counters (hr : system.Run (initEngine sold n n barrier) as e) : Counters n e :=
  initEngine_reachable.invariant_run (fun _ _ _ hreach hc hn => hc.next (reachable_fifo hreach) hn)
    hr initEngine_counters

theorem ClientStep.requesting {c : κ} {now : Int64} {spurious : Bool}
    (h : ClientStep e c now spurious e') (hc : (e.calls c).Requesting) :
    (e'.calls c).Requesting := by
  cases h with
  | requestTest pc | batchTest pc =>
    rw [State.setCall_calls_self]
    split <;> trivial
  | finish pc todo =>
    rw [pc] at hc
    have hp : _ = Purpose.once := hc
    simp [State.setCall_calls_self,Push.done,hp,Call.Requesting]
  | accepted pc todo ret =>
    rw [pc] at hc
    rw [State.setCall_calls_self]
    split <;> exact hc
  | attempt pc todo next | full pc todo ret | count pc =>
    rw [pc] at hc
    rw [State.setCall_calls_self]
    exact hc
  | access pc todo next | poll pc next => exact hc
  | warmUpTest pc | enter pc _ | reset pc =>
    rw [pc] at hc
    exact hc.elim
  | _ =>
    rw [State.setCall_calls_self]
    trivial

theorem Requests.next (h : Requests e) (hf : ∀ i, Fifo (e.shards i)) (ha : ¬ a.Signals)
    (hn : e.next a = some e') : Requests e' where
  calls c := by
    rcases State.next_calls hn c with he | ⟨f,rfl,hidle,hs⟩ | ⟨now,spurious,rfl,hstep⟩
    · rw [he]
      exact h.calls c
    · unfold State.start at hs
      rw [hidle] at hs
      cases f with
      | pollResult =>
        obtain ⟨q,-,rfl⟩ := Option.map_eq_some_iff.mp hs
        rw [State.setCall_calls_self]
        trivial
      | warmUpEngine | waitEngineDrained => exact absurd trivial ha
      | _ =>
        cases hs
        rw [State.setCall_calls_self]
        trivial
    · exact hstep.requesting (h.calls c)
  signals := by
    rw [← h.signals]
    refine Finset.sum_congr rfl fun i _ => ?_
    generalize hs : e'.shards i = s'
    cases hs ▸ State.next_flow hf hn i with
    | quiet tickets _ => rw [tickets]
    | @accept c _ _ p _ _ _ pc _ _ _ tickets _ =>
      have hp := h.calls c
      rw [pc] at hp
      have honce : (p.caller c).isOnce = true := by rw [Push.caller,show p.purpose = .once from hp]; rfl
      simp [tickets,honce]
    | process _ queue _ => rw [queue]

theorem run_requests (hr : system.Run (initEngine sold n n barrier) as e)
    (ha : ∀ a ∈ as, ¬ a.Signals) : Requests e :=
  initEngine_reachable.invariant_along (P := fun _ a => ¬ a.Signals)
    (fun _ _ _ hreach hq ha hn => hq.next (reachable_fifo hreach) ha hn) hr
    (System.along_of_forall fun a h _ => ha a h) initEngine_requests

/-- The totals balance exactly as long as `WarmUpEngine` and `WaitEngineDrained` get nothing
in, or as much of it as the totals cannot tell from nothing. -/
theorem totals_balance_iff (hr : system.Run (initEngine sold n n barrier) as e)
    (hc : ∀ c, ¬ (e.calls c).Entering) :
    (Balanced e ↔ 2^64 ∣ e.signalsIn) ∧ ((∀ a ∈ as, ¬ a.Signals) → Balanced e) := by
  have hreach : system.Reachable e := initEngine_reachable.run hr
  have hdiff := (run_counters hr).difference_iff (reachable_fifo hreach) fun c h =>
    hc c h.entering
  have hiff : Balanced e ↔ 2^64 ∣ e.signalsIn := ⟨fun h => hdiff.mp h.difference,fun h =>
    .of_difference (hdiff.mpr h)⟩
  refine ⟨hiff,fun ha => hiff.mpr ?_⟩
  rw [(run_requests hr ha).signals]
  exact Nat.dvd_zero _

end Runs

def requestRun : List (Act Unit) :=
  .start () (.enqueueRequest (saleRequest 5)) :: List.replicate 11 (.client () 1 false) ++
    List.replicate 12 (.dispatch 1 2 3 false)

def requestState : State Unit :=
  (system.exec (initEngine 0 0 0 0) requestRun).get (by decide +kernel)

theorem totals_balance_request : requestState.enqueueCount = 1 ∧ requestState.dequeueCount = 1 ∧
    (∀ i, (requestState.shards i).queue.tickets.length =
      (requestState.shards i).queue.takers.length ∧ (requestState.shards i).holding = false) ∧
    Balanced requestState := by
  have hr : system.Run (initEngine 0 0 0 0) requestRun requestState :=
    System.run_of_exec (Option.some_get _).symm
  have hc : requestState.calls () = .ret 1 := by decide +kernel
  refine ⟨by decide +kernel,by decide +kernel,by decide +kernel,(totals_balance_iff hr fun c => ?_).2 ?_⟩
  · rw [hc]
    exact id
  · simp [requestRun,Act.Signals]

def signalRun : List (Act Unit) :=
  .start () .waitEngineDrained :: List.replicate 17 (.client () 1 false) ++
    List.replicate 12 (.dispatch 0 2 3 false) ++ List.replicate 12 (.dispatch 1 2 3 false) ++
    List.replicate 16 (.work 0 default) ++ List.replicate 16 (.work 1 default) ++
    List.replicate 2 (.client () 3 false)

def signalState : State Unit :=
  (system.exec (initEngine 0 0 0 0) signalRun).get (by decide +kernel)

theorem totals_drift : system.Run (initEngine 0 0 0 0) signalRun signalState ∧
    (∀ c, ¬ (signalState.calls c).Entering) ∧
    (∀ i, (signalState.shards i).queue.tickets.length =
      (signalState.shards i).queue.takers.length ∧ (signalState.shards i).holding = false) ∧
    signalState.enqueueCount = 0 ∧ signalState.dequeueCount = 2 ∧ ¬ Balanced signalState := by
  have hr : system.Run (initEngine 0 0 0 0) signalRun signalState :=
    System.run_of_exec (Option.some_get _).symm
  have hc : signalState.calls () = .ret 0 := by decide +kernel
  have hempty : ∀ i, (signalState.shards i).queue.tickets.length =
      (signalState.shards i).queue.takers.length ∧ (signalState.shards i).holding = false := by
    decide +kernel
  have henq : signalState.enqueueCount = 0 := by decide +kernel
  have hdeq : signalState.dequeueCount = 2 := by decide +kernel
  refine ⟨hr,fun c => ?_,hempty,henq,hdeq,fun h => ?_⟩
  · rw [hc]
    exact id
  · have heq := h.drained hempty
    rw [henq,hdeq] at heq
    exact absurd heq (by decide)
end Flashsale.Engine
