import Flashsale.ClientSteps
import Flashsale.Server
import Flashsale.Transition
set_option autoImplicit false

namespace Flashsale.Server
open Cache Engine Backend Transition
variable {κ : Type} [DecidableEq κ]

inductive Step (s : State κ) : Act κ → State κ → Prop where
  | deducted {http : HttpRequest} {now : Int} {g : Gate}
      (admits : (s.gates http.member.skuId).Admits http.member)
      (script : Deducted (s.gates http.member.skuId) g http.member) :
      Step s (.receive http now)
        { s.setGate http.member.skuId g with
          handlers := http.member ::ₘ s.handlers
          deducted := http.member ::ₘ s.deducted }
  | answered {http : HttpRequest} {now : Int} (r : Response)
      (script : ¬ (s.gates http.member.skuId).Admits http.member) :
      Step s (.receive http now) (s.respond http.member r)
  | enqueue {c : κ} {m : Member} {e : Engine.State κ} (handled : m ∈ s.handlers)
      (start : s.engine.start c (.enqueueRequest (creq m)) = some e) :
      Step s (.enqueue c m)
        { s with
          engine := e
          handlers := s.handlers.erase m
          enqueuing := (c,m) ::ₘ s.enqueuing }
  | accepted {c : κ} {m : Member} (calling : (c,m) ∈ s.enqueuing)
      (ret : s.engine.calls c = .ret 1) :
      Step s (.enqueued c m)
        ({ s with
          enqueuing := s.enqueuing.erase (c,m)
          acceptedRequests := s.acceptedRequests + 1
          accepted := (c,m) ::ₘ s.accepted }.respond m (.queued m.reqId))
  | refused {c : κ} {m : Member} {n : Nat} (r : Response) (calling : (c,m) ∈ s.enqueuing)
      (ret : s.engine.calls c = .ret n) (ne : n ≠ 1) :
      Step s (.enqueued c m)
        { s with
          enqueuing := s.enqueuing.erase (c,m)
          refused := (m,r) ::ₘ s.refused
          rejected := (c,m) ::ₘ s.rejected }
  | undo {m : Member} {r : Response} (asked : (m,r) ∈ s.refused) :
      Step s (.undo m r)
        ({ s.setGate m.skuId ((s.gates m.skuId).rollback m).2 with
          refused := s.refused.erase (m,r)
          undone := m ::ₘ s.undone }.respond m r)
  | poll {c : κ} {e : Engine.State κ} (start : s.engine.start c .pollResult = some e) :
      Step s (.poll c) { s with engine := e, polling := c ::ₘ s.polling }
  | nothing {c : κ} (polling : c ∈ s.polling) (ret : s.engine.calls c = .retResult none) :
      Step s (.polled c) { s with polling := s.polling.erase c }
  | result {c : κ} {res : CSeckillResult} (polling : c ∈ s.polling)
      (ret : s.engine.calls c = .retResult (some res)) :
      Step s (.polled c)
        { s with
          polling := s.polling.erase c
          resultsReceived := s.resultsReceived + 1
          resultsSoldOut := if res.status = 2 then s.resultsSoldOut + 1 else s.resultsSoldOut
          tasks := (rollbackTask res).elim s.tasks (· ::ₘ s.tasks)
          received := (c,res) ::ₘ s.received }
  | cleanup {t : CleanupTask} (asked : t ∈ s.tasks) :
      Step s (.cleanup t)
        { s.setGate t.skuId ((s.gates t.skuId).rollback t.member).2 with
          tasks := s.tasks.erase t
          cleaned := t ::ₘ s.cleaned }
  | control {a : Act κ} {c : κ} {f : Api} {e : Engine.State κ}
      (act : a = .warmUp c ∧ f = .warmUpEngine ∨ a = .drain c ∧ f = .waitEngineDrained)
      (start : s.engine.start c f = some e) : Step s a (s.setEngine e)
  | engine {a : Engine.Act κ} {e : Engine.State κ} (act : ∀ c f, a ≠ .start c f)
      (next : s.engine.next a = some e) : Step s (.engine a) (s.setEngine e)

section Steps
variable {s s' : State κ} {a : Act κ}

theorem State.receive_cases (s : State κ) (http : HttpRequest) (now : Int) :
    Step s (.receive http now) (s.receive http.member now) := by
  have hone := (s.gates http.member.skuId).deduct_eq_one http.member now
  rcases (s.gates http.member.skuId).deduct_cases http.member now with ⟨hr,hd⟩ | ⟨hr,hg⟩
  · have hs : s.receive http.member now =
        { s.setGate http.member.skuId ((s.gates http.member.skuId).deduct http.member now).2 with
          handlers := http.member ::ₘ s.handlers
          deducted := http.member ::ₘ s.deducted } := by
      simp [State.receive,State.setGate,hr]
    rw [hs]
    exact .deducted (hone.mp hr) hd
  · have hno : ¬ (s.gates http.member.skuId).Admits http.member := fun ha => by
      rw [hone.mpr ha] at hr
      simp at hr
    have hsame : s.setGate http.member.skuId (s.gates http.member.skuId) = s := by
      rw [State.setGate,Function.update_eq_self]
    simp only [List.mem_cons,List.not_mem_nil,or_false] at hr
    have hs : ∃ r, s.receive http.member now = s.respond http.member r := by
      rcases hr with hr | hr | hr | hr <;> simp only [State.receive,hr,hg,hsame]
      all_goals exact ⟨_,rfl⟩
    obtain ⟨r,hs⟩ := hs
    rw [hs]
    exact .answered r hno

theorem State.next_cases (hn : s.next a = some s') : Step s a s' := by
  cases a with
  | receive http now =>
    cases hn
    exact s.receive_cases http now
  | enqueue c m =>
    simp only [State.next,State.enqueue] at hn
    split at hn
    · rename_i hm
      obtain ⟨e,hs,rfl⟩ := Option.map_eq_some_iff.mp hn
      exact .enqueue hm hs
    · cases hn
  | enqueued c m =>
    simp only [State.next,State.enqueued] at hn
    split at hn
    · rename_i hm
      cases hcall : s.engine.calls c with
      | ret n =>
        simp only [hcall] at hn
        split at hn
        · rename_i hone
          cases hn
          exact .accepted hm (hone ▸ hcall)
        · rename_i hne
          cases hn
          exact .refused _ hm hcall hne
      | _ => simp [hcall] at hn
    · cases hn
  | undo m r =>
    simp only [State.next,State.undo] at hn
    split at hn
    · rename_i hm
      cases hn
      exact .undo hm
    · cases hn
  | poll c =>
    obtain ⟨e,hs,rfl⟩ := Option.map_eq_some_iff.mp hn
    exact .poll hs
  | polled c =>
    simp only [State.next,State.polled] at hn
    split at hn
    · rename_i hm
      cases hcall : s.engine.calls c with
      | retResult res =>
        cases res with
        | none =>
          simp only [hcall] at hn
          cases hn
          exact .nothing hm hcall
        | some res =>
          simp only [hcall] at hn
          cases hn
          exact .result hm hcall
      | _ => simp [hcall] at hn
    · cases hn
  | cleanup t =>
    simp only [State.next,State.cleanup] at hn
    split at hn
    · rename_i hm
      cases hn
      exact .cleanup hm
    · cases hn
  | warmUp c =>
    obtain ⟨e,hs,rfl⟩ := Option.map_eq_some_iff.mp hn
    exact .control (.inl ⟨rfl,rfl⟩) hs
  | drain c =>
    obtain ⟨e,hs,rfl⟩ := Option.map_eq_some_iff.mp hn
    exact .control (.inr ⟨rfl,rfl⟩) hs
  | engine a =>
    cases a with
    | start c f => cases hn
    | _ =>
      obtain ⟨e,hs,rfl⟩ := Option.map_eq_some_iff.mp hn
      exact .engine (by simp) hs

theorem Step.engine_cases (hs : Step s a s') : s'.engine = s.engine ∨
    ∃ b, s.engine.next b = some s'.engine ∧ (a = .engine b ∨ ∃ c f, b = .start c f) := by
  cases hs with
  | @enqueue c m _ _ start => exact .inr ⟨.start c (.enqueueRequest (creq m)),start,.inr ⟨_,_,rfl⟩⟩
  | @poll c _ start => exact .inr ⟨.start c .pollResult,start,.inr ⟨_,_,rfl⟩⟩
  | @control _ c f _ _ start => exact .inr ⟨.start c f,start,.inr ⟨_,_,rfl⟩⟩
  | engine _ next => exact .inr ⟨_,next,.inl rfl⟩
  | _ => exact .inl rfl

theorem projects_engine : System.Projects (@system κ _) Engine.system State.engine :=
  fun _ _ _ hn => (State.next_cases hn).engine_cases.imp id fun ⟨b,hb,_⟩ => ⟨b,hb⟩

theorem reachable_engine (h : system.Reachable s) : Engine.system.Reachable s.engine := by
  refine h.project ?_ projects_engine
  rintro s ⟨stock,e,hi,rfl⟩
  exact hi

end Steps

/-- The calls of `EnqueueRequest`, each with its request. -/
def State.callers (s : State κ) : Multiset (κ × Member) := s.enqueuing + s.accepted + s.rejected

structure Books (s : State κ) : Prop where
  deducted : s.deducted = s.handlers + s.callers.map Prod.snd
  rejected : s.rejected.map Prod.snd = s.refused.map Prod.fst + s.undone
  received : (s.received.map Prod.snd).filterMap rollbackTask = s.tasks + s.cleaned
  acceptedRequests : s.acceptedRequests = UInt64.ofNat s.accepted.card
  resultsReceived : s.resultsReceived = UInt64.ofNat s.received.card

section Keeping
variable {s s' : State κ} {a : Act κ}

theorem Books.step (h : Books s) (hs : Step s a s') : Books s' := by
  cases hs with
  | deducted admits script =>
    refine ⟨?_,h.rejected,h.received,h.acceptedRequests,h.resultsReceived⟩
    simp only [State.callers,State.setGate,Multiset.cons_add]
    rw [h.deducted]
    rfl
  | answered r script => exact ⟨h.deducted,h.rejected,h.received,h.acceptedRequests,h.resultsReceived⟩
  | @enqueue c m e handled start =>
    refine ⟨?_,h.rejected,h.received,h.acceptedRequests,h.resultsReceived⟩
    obtain ⟨rest,hrest⟩ := Multiset.exists_cons_of_mem handled
    have hd := h.deducted
    simp only [State.callers,Multiset.map_add] at hd
    simp [State.callers,hd,hrest]
  | @accepted c m calling ret =>
    refine ⟨?_,h.rejected,h.received,?_,h.resultsReceived⟩
    · obtain ⟨rest,hrest⟩ := Multiset.exists_cons_of_mem calling
      have hd := h.deducted
      simp only [State.callers,Multiset.map_add] at hd
      simp [State.respond,State.callers,hd,hrest]
    · simp [State.respond,h.acceptedRequests,UInt64.ofNat_add]
  | @refused c m n r calling ret ne =>
    refine ⟨?_,?_,h.received,h.acceptedRequests,h.resultsReceived⟩
    · obtain ⟨rest,hrest⟩ := Multiset.exists_cons_of_mem calling
      have hd := h.deducted
      simp only [State.callers,Multiset.map_add] at hd
      simp [State.callers,hd,hrest]
    · simp [h.rejected]
  | @undo m r asked =>
    refine ⟨h.deducted,?_,h.received,h.acceptedRequests,h.resultsReceived⟩
    obtain ⟨rest,hrest⟩ := Multiset.exists_cons_of_mem asked
    have hr := h.rejected
    rw [hrest] at hr
    simp [State.respond,hrest,State.setGate,hr]
  | @result c res polling ret =>
    refine ⟨h.deducted,h.rejected,?_,h.acceptedRequests,?_⟩
    · rw [Multiset.map_cons]
      cases ht : rollbackTask res with
      | none => simp [Multiset.filterMap_cons_none _ _ ht,h.received]
      | some t => simp [Multiset.filterMap_cons_some _ _ _ ht,h.received]
    · simp [h.resultsReceived,UInt64.ofNat_add]
  | @cleanup t asked =>
    refine ⟨h.deducted,h.rejected,?_,h.acceptedRequests,h.resultsReceived⟩
    obtain ⟨rest,hrest⟩ := Multiset.exists_cons_of_mem asked
    have hr := h.received
    rw [hrest] at hr
    simp [State.setGate,hrest,hr]
  | poll start | nothing polling ret | control act start | engine act next =>
    exact ⟨h.deducted,h.rejected,h.received,h.acceptedRequests,h.resultsReceived⟩

theorem reachable_books (h : system.Reachable s) : Books s := by
  refine h.invariant ?_ fun s a s' h hn => h.step (State.next_cases hn)
  rintro s ⟨stock,e,-,rfl⟩
  exact ⟨rfl,rfl,rfl,rfl,rfl⟩

end Keeping
end Flashsale.Server
