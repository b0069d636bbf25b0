import Flashsale.CoreEngineFlow
import Flashsale.EndToEnd
import Mathlib
set_option autoImplicit false

namespace Flashsale.CoreEngine
open Transition
variable {κ : Type}

/-- What worker `i` has of its requests, from the processed ones back to the dispatcher's hand. -/
def State.pipeline (e : State κ) (i : WorkerId) : List Request :=
  (e.workers i).processed ++ (e.workers i).batchBuffer ++ (e.workers i).queue.contents ++ e.owed i

section State
variable {e : State κ}

theorem Sends.pipeline_eq (h : Sends e) (i : WorkerId) : e.pipeline i = e.sent i := by
  have hproc : (e.workers i).processed ++ (e.workers i).batchBuffer =
      (e.workers i).queue.delivered := h.processing i
  rw [State.pipeline,State.sent,hproc,← (h.spsc i).accepted_eq]

theorem Sends.sent_eq (h : Sends e) (hd : e.dropped = []) (i : WorkerId) :
    e.sent i = routed i e.handled := by
  have hperm : (e.sent i).Perm (routed i e.handled) := List.perm_iff_count.mpr fun req => by
    have := h.count i req
    rwa [hd,List.count_nil,Nat.add_zero] at this
  exact (h.order i).eq_of_length hperm.length_eq

theorem Ingress.handled_append (h : Ingress e) :
    e.handled ++ e.accepted.drop e.handled.length = e.accepted := by
  obtain ⟨more,hmore⟩ := h.isPrefix
  rw [← hmore,List.append_assoc,List.drop_left]

/-- While nothing is dropped, the requests of a worker are processed in their order. -/
theorem Sends.pipeline_append (h : Sends e) (hi : Ingress e) (hd : e.dropped = []) (i : WorkerId) :
    e.pipeline i ++ routed i (e.accepted.drop e.handled.length) = routed i e.accepted := by
  rw [h.pipeline_eq,h.sent_eq hd,← routed_append,hi.handled_append]

theorem Sends.processed_prefix (h : Sends e) (hi : Ingress e) (hd : e.dropped = []) (i : WorkerId) :
    (e.workers i).processed <+: routed i e.accepted := by
  rw [← h.pipeline_append hi hd i,State.pipeline]
  simp only [List.append_assoc]
  exact List.prefix_append _ _

theorem Sends.processed_sublist (h : Sends e) (hi : Ingress e) (i : WorkerId) :
    (e.workers i).processed.Sublist (routed i e.accepted) := by
  have hsent : (e.workers i).processed <+: e.sent i := by
    rw [← h.pipeline_eq,State.pipeline]
    simp only [List.append_assoc]
    exact List.prefix_append _ _
  have hhandled : (routed i e.handled).Sublist (routed i e.accepted) :=
    ((List.prefix_append _ _).trans hi.isPrefix).sublist.filter _
  exact (hsent.sublist.trans (h.order i)).trans hhandled

end State

section Runs
variable [DecidableEq κ] {e e' : State κ}

theorem State.next_tickets {a : Act κ} (hn : e.next a = some e') :
    e.queue.tickets <+: e'.queue.tickets := by
  cases a with
  | start c f =>
    simp only [State.next,State.start] at hn
    split at hn
    · cases f with
      | pollResult =>
        obtain ⟨q,-,rfl⟩ := Option.map_eq_some_iff.mp hn
        exact List.prefix_refl _
      | _ => cases hn; exact List.prefix_refl _
    · cases hn
  | client c spurious =>
    cases State.client_cases hn with
    | access k b q pc next => exact MpmcQueue.State.next_tickets (a := .step (.client c k) b) next
    | _ => exact List.prefix_refl _
  | dispatch spurious =>
    cases State.dispatch_cases hn with
    | call k batch q pc next => exact MpmcQueue.State.next_tickets next
    | access k batch b q pc next =>
      exact MpmcQueue.State.next_tickets (a := .step (.dispatcher k) b) next
    | _ => exact List.prefix_refl _
  | work i wr spurious =>
    obtain ⟨⟨sh,w⟩,-,rfl⟩ := Option.map_eq_some_iff.mp hn
    exact List.prefix_refl _
  | stop => cases State.stop_cases hn <;> exact List.prefix_refl _

/-- The requests keep their order all the way from their tickets to `Process`; each is
on its way to its worker once, or was dropped, which none is while the engine runs. -/
theorem dispatched_once (h : system.Reachable e) (i : WorkerId) :
    (∃ ingress, e.handled ++ e.dispatcher.batch ++ ingress = e.accepted ∧
      ingress.length ≤ e.queue.enqueuePos - e.queue.dequeuePos + 1) ∧
    (e.pipeline i).Sublist (routed i e.handled) ∧
    (∀ req, (e.pipeline i).count req + e.dropped.count (i,req) = (routed i e.handled).count req) ∧
    (e.running = true →
      e.pipeline i ++ routed i (e.accepted.drop e.handled.length) = routed i e.accepted) := by
  obtain ⟨hi,hs⟩ := reachable_flow h
  rw [hs.pipeline_eq]
  refine ⟨?_,hs.order i,hs.count i,fun hrun => ?_⟩
  · obtain ⟨ingress,heq⟩ := hi.isPrefix
    refine ⟨ingress,heq,?_⟩
    have hlen := congrArg List.length heq
    have hE : e.queue.enqueuePos = e.queue.tickets.length := hi.inv.enqueuePos
    have hD : e.queue.dequeuePos = e.queue.takers.length := hi.inv.dequeuePos
    have htaken : e.queue.takers.length ≤ e.handled.length + e.dispatcher.batch.length + 1 := by
      have htaken := hi.taken
      unfold State.Taken at htaken
      split at htaken
      · rename_i k batch hd
        obtain ⟨-,htaken⟩ := htaken
        rw [hd]
        simp only [Dispatcher.batch]
        split at htaken <;> omega
      · omega
    simp only [State.accepted,List.length_append,List.length_map] at hlen
    omega
  · rw [← hs.pipeline_eq]
    exact hs.pipeline_append hi (hs.kept hrun) i

def wholeWrite : WalWrite := { now := 5, pad := 0, written := some Engine.sizeofRecord }

/-- A call of `EnqueueBatch`; worker 3 has processed one of its two requests, and the
third is still with the dispatcher. -/
def threeRequests : List Request := [⟨123,1,7,1⟩,⟨999,2,7,2⟩,⟨888,5,7,3⟩]

def threeActs : List (Act Bool) :=
  .start true (.enqueueBatch threeRequests) :: List.replicate 23 (.client true false) ++
    List.replicate 48 (.dispatch false) ++ List.replicate 14 (.work 3 wholeWrite false)

def threeState : State Bool :=
  (system.exec (initEngine true 0) threeActs).get (by decide +kernel)

theorem threeState_reachable : system.Reachable threeState :=
  .exec (initEngine_init true 0) (by decide +kernel)

theorem dispatched_once_three :
    (threeState.workers 3).processed.map (·.requestId) = [1] ∧ threeState.running = true ∧
    threeState.pipeline 3 ++ routed 3 (threeState.accepted.drop threeState.handled.length) =
      routed 3 threeState.accepted :=
  ⟨by decide +kernel,by decide +kernel,
    (dispatched_once threeState_reachable 3).2.2.2 (by decide +kernel)⟩

end Runs
end Flashsale.CoreEngine
