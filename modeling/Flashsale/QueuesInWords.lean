import Flashsale.CoreEngineSales
import Flashsale.MpmcWord
import Flashsale.OrderWorkerSteps
import Flashsale.ResultQueue
set_option autoImplicit false

/-!
The lock-free queues of both engines and of the order test, whose positions are
numbers there: as long as the tickets stay below half the word, each is in a state
that the queue over 64-bit words reaches.
-/

namespace Flashsale
open Transition

namespace MpmcQueue
variable {T ι σ α : Type} [DecidableEq ι] [Inhabited T] {M : System σ α} {f : σ → State Nat T ι}
  {n : Nat} {s : σ}

/-- A queue inside a system, where each step is one of the queue's or leaves it alone. -/
theorem reachable_word (hinit : ∀ s, M.init s → (system n).init (f s))
    (hf : System.Projects M (system n) f) (h : M.Reachable s)
    (ht : (f s).tickets.length + n ≤ 2^63) :
    (system (BitVec.ofNat 64 n)).Reachable ((f s).toWord 64) :=
  (reachable_toWord_iff (w := 64) (by decide) ht).mpr ⟨f s,h.project hinit hf,rfl⟩

end MpmcQueue

namespace Engine
variable {κ : Type} [DecidableEq κ] {e : State κ}

theorem projects_ingress (i : ShardId) : System.Projects (@system κ _)
    (MpmcQueue.system (1024*4)) fun e => (e.shards i).queue := by
  intro e a e' hn
  rcases State.next_shard hn i with hs | hs
  · exact .inl (congrArg Shard.queue hs)
  · change (e'.shards i).queue = _ ∨ ∃ b, (e.shards i).queue.next b = some (e'.shards i).queue
    generalize e'.shards i = s' at hs
    cases hs with
    | enqueue _ _ _ _ hq | attempt _ _ _ _ hq | call _ _ _ _ _ hq => exact .inr ⟨_,hq⟩
    | dequeue _ _ _ _ hq => exact .inr ⟨_,hq⟩
    | _ => exact .inl rfl

theorem projects_results : System.Projects (@system κ _)
    (MpmcQueue.system (1024*16)) fun e => e.shared.resultQueue := by
  intro e a e' hn
  rcases State.next_results hn with hq | hq
  · exact .inl hq
  · obtain ⟨b,-,hb,-⟩ := hq.cases
    exact .inr ⟨b,hb⟩

theorem ingress_in_words (h : system.Reachable e) (i : ShardId)
    (ht : (e.shards i).queue.tickets.length + 1024*4 ≤ 2^63) :
    (MpmcQueue.system (1024*4 : BitVec 64)).Reachable ((e.shards i).queue.toWord 64) := by
  refine MpmcQueue.reachable_word (f := fun e => (e.shards i).queue) ?_ (projects_ingress i) h ht
  rintro e ⟨_,_,_,_,rfl⟩
  exact startShard_queue

theorem results_in_words (h : system.Reachable e)
    (ht : e.shared.resultQueue.tickets.length + 1024*16 ≤ 2^63) :
    (MpmcQueue.system (1024*16 : BitVec 64)).Reachable (e.shared.resultQueue.toWord 64) := by
  refine MpmcQueue.reachable_word (f := fun e => e.shared.resultQueue) ?_ projects_results h ht
  rintro e ⟨_,_,_,_,rfl⟩
  rfl

end Engine

namespace CoreEngine
variable {κ : Type} [DecidableEq κ] {e : State κ}

theorem projects_queue : System.Projects (@system κ _) (MpmcQueue.system queueCap) State.queue := by
  intro e a e' hn
  change e'.queue = _ ∨ ∃ b, e.queue.next b = some e'.queue
  cases a with
  | start c f =>
    have hn : e.start c f = some e' := hn
    unfold State.start at hn
    split at hn
    · cases f with
      | pollResult =>
        obtain ⟨q,-,rfl⟩ := Option.map_eq_some_iff.mp hn
        exact .inl rfl
      | _ => cases hn; exact .inl rfl
    · cases hn
  | client c spurious =>
    cases State.client_cases hn with
    | attempt req todo n pc idle => exact .inr ⟨.enqueue _ req,MpmcQueue.State.call_of_idle idle⟩
    | signal k pc idle => exact .inr ⟨.enqueue _ barrierRequest,MpmcQueue.State.call_of_idle idle⟩
    | access k b q pc next => exact .inr ⟨_,next⟩
    | _ => exact .inl rfl
  | dispatch spurious =>
    cases State.dispatch_cases hn with
    | call k batch q pc next | access k batch b q pc next => exact .inr ⟨_,next⟩
    | _ => exact .inl rfl
  | work i wr spurious =>
    obtain ⟨⟨sh,w⟩,-,rfl⟩ := Option.map_eq_some_iff.mp hn
    exact .inl rfl
  | stop => cases State.stop_cases hn <;> exact .inl rfl

theorem projects_results : System.Projects (@system κ _) (MpmcQueue.system queueCap)
    fun e => e.shared.resultQueue := by
  intro e a e' hn
  change e'.shared.resultQueue = _ ∨
    ∃ b, e.shared.resultQueue.next b = some e'.shared.resultQueue
  cases a with
  | start c f =>
    have hn : e.start c f = some e' := hn
    unfold State.start at hn
    split at hn
    · cases f with
      | pollResult =>
        obtain ⟨q,hq,rfl⟩ := Option.map_eq_some_iff.mp hn
        exact .inr ⟨_,hq⟩
      | _ => cases hn; exact .inl rfl
    · cases hn
  | client c spurious =>
    cases State.client_cases hn with
    | poll b q pc next => exact .inr ⟨_,next⟩
    | _ => exact .inl rfl
  | dispatch spurious => cases State.dispatch_cases hn <;> exact .inl rfl
  | work i wr spurious =>
    obtain ⟨⟨sh,w⟩,hw,rfl⟩ := Option.map_eq_some_iff.mp hn
    exact (Worker.step_cases hw).accesses.imp_right fun ⟨_,b,_,hb⟩ => ⟨b,hb⟩
  | stop => cases State.stop_cases hn <;> exact .inl rfl

theorem queue_in_words (h : system.Reachable e) (ht : e.queue.tickets.length + queueCap ≤ 2^63) :
    (MpmcQueue.system (BitVec.ofNat 64 queueCap)).Reachable (e.queue.toWord 64) := by
  refine MpmcQueue.reachable_word (f := State.queue) ?_ projects_queue h ht
  rintro e ⟨_,_,rfl⟩
  rfl

theorem results_in_words (h : system.Reachable e)
    (ht : e.shared.resultQueue.tickets.length + queueCap ≤ 2^63) :
    (MpmcQueue.system (BitVec.ofNat 64 queueCap)).Reachable (e.shared.resultQueue.toWord 64) := by
  refine MpmcQueue.reachable_word (f := fun e => e.shared.resultQueue) ?_ projects_results h ht
  rintro e ⟨_,_,rfl⟩
  rfl

end CoreEngine

namespace OrderWorker
variable {p c perProducer queueCap : Nat} {s : State p c}

theorem projects_queue : System.Projects (system p c perProducer queueCap)
    (MpmcQueue.system queueCap) State.queue := by
  intro s a s' hn
  change s'.queue = _ ∨ ∃ b, s.queue.next b = some s'.queue
  cases a with
  | produce i draw spurious =>
    cases State.produce_cases hn with
    | call k intent pc idle => exact .inr ⟨.enqueue _ intent,MpmcQueue.State.call_of_idle idle⟩
    | queue k b q pc next => exact .inr ⟨.step _ b,next⟩
    | _ => exact .inl rfl
  | work w spurious =>
    cases State.work_cases hn with
    | call k recheck pc idle => exact .inr ⟨.dequeue _,MpmcQueue.State.call_of_idle idle⟩
    | queue k recheck b q pc next => exact .inr ⟨.step _ b,next⟩
    | _ => exact .inl rfl
  | main => cases State.main_cases hn <;> exact .inl rfl

theorem queue_in_words (h : (system p c perProducer queueCap).Reachable s)
    (ht : s.queue.tickets.length + queueCap ≤ 2^63) :
    (MpmcQueue.system (BitVec.ofNat 64 queueCap)).Reachable (s.queue.toWord 64) := by
  refine MpmcQueue.reachable_word (f := State.queue) ?_ projects_queue h ht
  rintro s ⟨q,hq,rfl⟩
  exact hq

end OrderWorker
end Flashsale
