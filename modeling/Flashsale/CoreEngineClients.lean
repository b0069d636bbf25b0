import Flashsale.CoreEngineOrder
import Mathlib
set_option autoImplicit false

namespace Flashsale.CoreEngine
open Transition
variable {κ : Type}

def Api.requests : Api → List Request
  | .enqueueRequest creq => [creq]
  | .enqueueBatch reqs => reqs
  | .waitEngineDrained | .pollResult | .enableCorrectnessCheck _ | .getConsumerStats => []

def Act.requests : Act κ → List Request
  | .start _ f => f.requests
  | _ => []

def Admits (ok : Request → Prop) (_ : State κ) (a : Act κ) : Prop := ∀ req ∈ a.requests, ok req

def Call.requests : Call → List Request
  | .requestTestRunning creq | .testFlag creq => [creq]
  | .batchTestRunning reqs => reqs
  | .enqueue todo _ | .enqueuing todo _ => todo
  | _ => []

def Call.attempt : Call → Option (Nat × Option Request)
  | .enqueuing todo n => some (n,todo.head?)
  | .signalling k => some (k,some barrierRequest)
  | _ => none

structure Clients (ok : Request → Prop) (e : State κ) : Prop where
  requests : ∀ c, ∀ req ∈ (e.calls c).requests, ok req
  present : ∀ c n r, (e.calls c).attempt = some (n,r) → (e.queue.pc (.client c n)).item = r
  fresh : ∀ c, e.calls c = .idle → ∀ k, e.queue.pc (.client c k) = .idle
  accepted : ∀ req ∈ e.accepted, ok req ∨ req = barrierRequest

theorem initEngine_clients (ok : Request → Prop) (checkCorrectness : Bool) (barrierReached : UInt64) :
    Clients ok (initEngine checkCorrectness barrierReached : State κ) where
  requests c req hr := by simp [initEngine,Call.requests] at hr
  present c n r h := by simp [initEngine,Call.attempt] at h
  fresh _ _ _ := rfl
  accepted req hr := absurd hr (List.not_mem_nil (a := req))

theorem Call.mem_requests_of_attempt {p : Call} {n : Nat} {req : Request}
    (h : p.attempt = some (n,some req)) : req ∈ p.requests ∨ req = barrierRequest := by
  cases p with
  | enqueuing todo k =>
    simp only [Call.attempt,Option.some.injEq,Prod.mk.injEq] at h
    exact .inl (List.mem_of_mem_head? h.2)
  | signalling k =>
    simp only [Call.attempt,Option.some.injEq,Prod.mk.injEq] at h
    exact .inr h.2.symm
  | _ => simp [Call.attempt] at h

variable [DecidableEq κ] {ok : Request → Prop} {e e' : State κ}

theorem State.setCall_calls_self (e : State κ) (c : κ) (p : Call) : (e.setCall c p).calls c = p := by
  simp [State.setCall]

theorem State.setCall_calls_of_ne {c c' : κ} {p : Call} (h : c' ≠ c) :
    (e.setCall c p).calls c' = e.calls c' := by simp [State.setCall,h]

/-- What a step does to the calls and to the attempts at the ingress queue. -/
inductive CallStep (e e' : State κ) : Act κ → Prop where
  /-- Of another thread than a client's. -/
  | other {a : Act κ} (noStart : ∀ c f, a ≠ .start c f) (noClient : ∀ c b, a ≠ .client c b)
      (calls : e'.calls = e.calls)
      (pcs : ∀ c n, e'.queue.pc (.client c n) = e.queue.pc (.client c n))
      (tickets : e'.queue.tickets = e.queue.tickets) : CallStep e e' a
  | start (c : κ) (f : Api) (idle : e.calls c = .idle) (p : Call)
      (requests : p.requests = f.requests) (attempt : p.attempt = none) (pc : p ≠ .idle)
      (calls : e'.calls = (e.setCall c p).calls) (queue : e'.queue = e.queue) : CallStep e e' (.start c f)
  | move (c : κ) (b : Bool) (p : Call) (requests : ∀ req ∈ p.requests, req ∈ (e.calls c).requests)
      (attempt : p.attempt = none) (pc : e.calls c ≠ .idle ∧ p ≠ .idle)
      (calls : e'.calls = (e.setCall c p).calls) (queue : e'.queue = e.queue) : CallStep e e' (.client c b)
  | attempt (c : κ) (b : Bool) (p : Call) (n : Nat) (req : Request)
      (requests : ∀ req ∈ p.requests, req ∈ (e.calls c).requests)
      (attempt : p.attempt = some (n,some req)) (pc : e.calls c ≠ .idle ∧ p ≠ .idle)
      (calls : e'.calls = (e.setCall c p).calls)
      (queue : e'.queue = e.queue.goto (.client c n) (.enqLoadPos req)) : CallStep e e' (.client c b)
  | access (c : κ) (b spurious : Bool) (n : Nat) (r : Option Request)
      (attempt : (e.calls c).attempt = some (n,r))
      (next : e.queue.step (.client c n) spurious = some e'.queue)
      (rest : e' = { e with queue := e'.queue }) : CallStep e e' (.client c b)

theorem State.start_calls {c : κ} {f : Api} (h : e.start c f = some e') : CallStep e e' (.start c f) := by
  unfold State.start at h
  split at h
  · rename_i hidle
    cases f with
    | pollResult =>
      obtain ⟨q,-,rfl⟩ := Option.map_eq_some_iff.mp h
      exact .start c _ hidle .polling rfl rfl (by simp) rfl rfl
    | _ =>
      cases h
      exact .start c _ hidle _ rfl rfl (by simp) rfl rfl
  · cases h

theorem State.client_calls {c : κ} {b : Bool} (h : e.client c b = some e') :
    CallStep e e' (.client c b) := by
  cases State.client_cases h with
  | requestTest creq pc =>
    refine .move c b _ ?_ ?_ ⟨by simp [pc],?_⟩ rfl rfl <;> cases e.running <;>
      simp [Call.requests,Call.attempt,pc]
  | batchTest reqs pc =>
    refine .move c b _ ?_ ?_ ⟨by simp [pc],?_⟩ rfl rfl <;> cases e.running <;>
      simp [Call.requests,Call.attempt,pc]
  | testFlag creq pc =>
    refine .move c b _ ?_ ?_ ⟨by simp [pc],?_⟩ rfl rfl <;> split <;>
      simp [Call.requests,Call.attempt,pc]
  | attempt req todo n pc idle =>
    exact .attempt c b _ n req (by simp [Call.requests,pc]) rfl (by simp [pc]) rfl rfl
  | signal k pc idle =>
    exact .attempt c b _ k barrierRequest (by simp [Call.requests]) rfl (by simp [pc]) rfl rfl
  | access k b' q pc next =>
    rcases pc with ⟨todo,pc⟩ | pc
    · exact .access c b b' k _ (by rw [pc]; rfl) next rfl
    · exact .access c b b' k _ (by rw [pc]; rfl) next rfl
  | accepted todo n t data pc ret =>
    refine .move c b _ ?_ rfl (by simp [pc]) rfl rfl
    simp only [Call.requests,pc]
    exact fun _ => List.mem_of_mem_tail
  | finish n pc | full todo n data pc ret | reentered pc inside | enter pc inside | reset pc
  | signalled k t data pc ret | unsignalled k data pc ret | reached pc acks | waiting pc
  | stillRunning pc running | stopped pc running | leave pc
  | checkOff enabled pc off | checkOn enabled pc on
  | resetExpectedSeq pc | resetGapCount pc | resetDupCount pc | resetLastSeqSeen pc
  | loadLastSeqSeen pc | loadGapCount lastSeq pc | loadDupCount lastSeq gap pc
  | polled won pc ret =>
    exact .move c b _ (by simp [Call.requests]) rfl (by simp [pc]) rfl rfl
  | poll b' q pc next =>
    refine .move c b .polling (by simp [Call.requests]) rfl (by simp [pc]) ?_ rfl
    simp [State.setCall,← pc]

theorem State.next_calls {a : Act κ} (hi : Ingress e) (h : e.next a = some e') : CallStep e e' a := by
  cases a with
  | start c f => exact State.start_calls h
  | client c b => exact State.client_calls h
  | dispatch b =>
    cases State.dispatch_cases h with
    | call k batch q pc next =>
      obtain ⟨-,rfl⟩ := MpmcQueue.State.call_eq next
      exact .other (by simp) (by simp) rfl (fun c n => MpmcQueue.State.goto_pc_of_ne (by simp)) rfl
    | access k batch b' q pc next =>
      refine .other (by simp) (by simp) rfl (fun c n => MpmcQueue.State.step_pc_of_ne next (by simp)) ?_
      have htaken := hi.taken
      simp only [State.Taken,pc] at htaken
      cases (MpmcQueue.State.step_effect next).2.2 with
      | quiet ht _ _ | took _ _ _ ht _ => exact ht
      | won data item _ _ =>
        rw [MpmcQueue.Pc.item_eq_none_of_dequeuing htaken.1] at item
        cases item
    | _ => exact .other (by simp) (by simp) rfl (fun _ _ => rfl) rfl
  | work i wr b =>
    obtain ⟨⟨sh,w⟩,-,rfl⟩ := Option.map_eq_some_iff.mp h
    exact .other (by simp) (by simp) rfl (fun _ _ => rfl) rfl
  | stop => cases State.stop_cases h <;> exact .other (by simp) (by simp) rfl (fun _ _ => rfl) rfl

inductive TicketStep (e e' : State κ) : Act κ → Prop where
  | quiet {a : Act κ} (tickets : e'.queue.tickets = e.queue.tickets) : TicketStep e e' a
  | won (c : κ) (b : Bool) (n : Nat) (req : Request)
      (attempt : (e.calls c).attempt = some (n,some req))
      (tickets : e'.queue.tickets = e.queue.tickets ++ [(.client c n,req)])
      (rest : e' = { e with queue := e'.queue }) : TicketStep e e' (.client c b)

theorem CallStep.ticket {a : Act κ} (h : CallStep e e' a) (hc : Clients ok e) : TicketStep e e' a := by
  cases h with
  | other _ _ _ _ tickets => exact .quiet tickets
  | start c f _ _ _ _ _ _ queue | move c b _ _ _ _ _ queue => exact .quiet (by rw [queue])
  | attempt c b _ _ _ _ _ _ _ queue =>
    rw [MpmcQueue.State.goto] at queue
    exact .quiet (by rw [queue])
  | access c b spurious n r attempt next rest =>
    cases (MpmcQueue.State.step_effect next).2.2 with
    | quiet ht _ _ | took _ _ _ ht _ => exact .quiet ht
    | won req item ht _ =>
      rw [hc.present c n r attempt] at item
      exact .won c b n req (item ▸ attempt) ht rest

theorem Clients.of_set {c : κ} {p : Call} (h : Clients ok e) (hcalls : e'.calls = (e.setCall c p).calls)
    (hp : ∀ req ∈ p.requests, ok req) (hne : p ≠ .idle)
    (hpresent : ∀ n r, p.attempt = some (n,r) → (e'.queue.pc (.client c n)).item = r)
    (hpcs : ∀ c', c' ≠ c → ∀ n, e'.queue.pc (.client c' n) = e.queue.pc (.client c' n))
    (hacc : ∀ req ∈ e'.accepted, ok req ∨ req = barrierRequest) : Clients ok e' := by
  have hself : e'.calls c = p := by rw [hcalls,State.setCall_calls_self]
  have hother : ∀ c', c' ≠ c → e'.calls c' = e.calls c' := fun c' hc => by
    rw [hcalls,State.setCall_calls_of_ne hc]
  refine ⟨fun c' => ?_,fun c' n r hr => ?_,fun c' hr k => ?_,hacc⟩ <;> by_cases hc : c' = c
  · subst hc
    rw [hself]
    exact hp
  · rw [hother c' hc]
    exact h.requests c'
  · subst hc
    rw [hself] at hr
    exact hpresent n r hr
  · rw [hother c' hc] at hr
    rw [hpcs c' hc]
    exact h.present c' n r hr
  · subst hc
    exact absurd (hself.symm.trans hr) hne
  · rw [hother c' hc] at hr
    rw [hpcs c' hc]
    exact h.fresh c' hr k

theorem Clients.next {a : Act κ} (h : Clients ok e) (hi : Ingress e) (ha : Admits ok e a)
    (hn : e.next a = some e') : Clients ok e' := by
  have hstep := State.next_calls hi hn
  have hacc : ∀ req ∈ e'.accepted, ok req ∨ req = barrierRequest := by
    intro req hr
    cases hstep.ticket h with
    | quiet tickets =>
      rw [State.accepted,tickets] at hr
      exact h.accepted req hr
    | won c b n r attempt tickets rest =>
      simp only [State.accepted,tickets,List.map_append,List.mem_append,List.map_cons,List.map_nil,
        List.mem_singleton] at hr
      rcases hr with hr | rfl
      · exact h.accepted req hr
      · exact (Call.mem_requests_of_attempt attempt).imp (h.requests c req) id
  cases hstep with
  | other _ _ calls pcs _ =>
    refine ⟨?_,?_,?_,hacc⟩
    · rw [calls]
      exact h.requests
    · intro c n r hr
      rw [calls] at hr
      rw [pcs]
      exact h.present c n r hr
    · intro c hr k
      rw [calls] at hr
      rw [pcs]
      exact h.fresh c hr k
  | start c f idle p requests attempt pc calls queue =>
    refine h.of_set calls ?_ pc (by simp [attempt]) (fun _ _ _ => by rw [queue]) hacc
    rw [requests]
    exact ha
  | move c b p requests attempt pc calls queue =>
    exact h.of_set calls (fun req hr => h.requests c req (requests req hr)) pc.2 (by simp [attempt])
      (fun _ _ _ => by rw [queue]) hacc
  | attempt c b p n req requests attempt pc calls queue =>
    refine h.of_set calls (fun req hr => h.requests c req (requests req hr)) pc.2 ?_ ?_ hacc
    · intro k r hk
      obtain ⟨rfl,rfl⟩ : n = k ∧ some req = r := by simpa [attempt] using hk
      rw [queue,MpmcQueue.State.goto_pc_self]
      rfl
    · intro c' hc k
      rw [queue,MpmcQueue.State.goto_pc_of_ne (by simp [hc])]
  | access c b spurious n r attempt next rest =>
    have hcalls : e'.calls = (e.setCall c (e.calls c)).calls := by
      rw [rest]
      simp [State.setCall]
    refine h.of_set hcalls (h.requests c) ?_ ?_ ?_ hacc
    · intro hidle
      simp [hidle,Call.attempt] at attempt
    · intro k r' hk
      obtain ⟨rfl,rfl⟩ : n = k ∧ r = r' := by simpa [attempt] using hk
      rw [(MpmcQueue.State.step_effect next).1]
      exact h.present c n r attempt
    · intro c' hc k
      exact MpmcQueue.State.step_pc_of_ne next (by simp [hc])

theorem run_clients {checkCorrectness : Bool} {barrierReached : UInt64} {as : List (Act κ)}
    (hr : system.Run (initEngine checkCorrectness barrierReached) as e)
    (ha : system.Along (Admits ok) (initEngine checkCorrectness barrierReached) as) : Clients ok e :=
  (System.Reachable.of_init (initEngine_init checkCorrectness barrierReached)).invariant_along
    (fun _ _ _ hs hc hp hn => hc.next (reachable_flow hs).1 hp hn) hr ha
    (initEngine_clients ok checkCorrectness barrierReached)

def Caller.isClient (c : κ) : Caller κ → Bool
  | .client c' _ => c' = c
  | .dispatcher _ => false

def State.enqueuedBy (e : State κ) (c : κ) : List Request :=
  (e.queue.tickets.filter (·.1.isClient c)).map (·.2)

/-- What the value returned says about the requests accepted. -/
def Api.Returns (f : Api) (n : Nat) (accepted : List Request) : Prop :=
  match f with
  | .enqueueRequest creq => n ≤ 2 ∧ accepted = if n = 1 then [creq] else []
  | .enqueueBatch reqs => n ≤ reqs.length ∧ accepted = reqs.take n
  | .waitEngineDrained | .pollResult | .enableCorrectnessCheck _ | .getConsumerStats => True

/-- What is accepted of the requests of a call of `f`, and what is left to enqueue. -/
def State.Brings (e : State κ) (f : Api) (c : κ) : Prop :=
  match e.calls c with
  | .requestTestRunning creq | .testFlag creq => f = .enqueueRequest creq ∧ e.enqueuedBy c = []
  | .batchTestRunning reqs => f = .enqueueBatch reqs ∧ e.enqueuedBy c = []
  | .enqueue todo n => e.enqueuedBy c ++ todo = f.requests ∧ (e.enqueuedBy c).length = n
  | .enqueuing todo n =>
      if (e.queue.pc (.client c n)).enqueued.isSome then
        e.enqueuedBy c ++ todo.tail = f.requests ∧ (e.enqueuedBy c).length = n + 1
      else e.enqueuedBy c ++ todo = f.requests ∧ (e.enqueuedBy c).length = n
  | .ret n => f.Returns n (e.enqueuedBy c)
  | _ => False

section Enqueue
variable {a : Act κ} {c : κ} {f : Api} {n : Nat} {s : State κ}

theorem CallStep.frame (h : CallStep e e' a) (hc : Clients ok e) (hbusy : e.calls c ≠ .idle)
    (hclient : ∀ b, a ≠ .client c b) :
    e'.calls c = e.calls c ∧ (∀ n, e'.queue.pc (.client c n) = e.queue.pc (.client c n)) ∧
      e'.enqueuedBy c = e.enqueuedBy c := by
  have hset : ∀ {c' : κ} {p : Call}, e'.calls = (e.setCall c' p).calls → c' ≠ c →
      e'.calls c = e.calls c := fun hcalls hne => by
    rw [hcalls,State.setCall_calls_of_ne (Ne.symm hne)]
  have hby : e'.enqueuedBy c = e.enqueuedBy c := by
    cases h.ticket hc with
    | quiet tickets => rw [State.enqueuedBy,State.enqueuedBy,tickets]
    | won c' b n req attempt tickets rest =>
      have hne : c' ≠ c := by
        rintro rfl
        exact hclient b rfl
      simp [State.enqueuedBy,tickets,Caller.isClient,hne]
  cases h with
  | other _ _ calls pcs _ => exact ⟨by rw [calls],pcs c,hby⟩
  | start c' f' idle _ _ _ _ calls queue =>
    have hne : c' ≠ c := by
      rintro rfl
      exact hbusy idle
    exact ⟨hset calls hne,fun _ => by rw [queue],hby⟩
  | move c' b _ _ _ _ calls queue =>
    have hne : c' ≠ c := by
      rintro rfl
      exact hclient b rfl
    exact ⟨hset calls hne,fun _ => by rw [queue],hby⟩
  | attempt c' b _ k _ _ _ _ calls queue =>
    have hne : c' ≠ c := by
      rintro rfl
      exact hclient b rfl
    exact ⟨hset calls hne,fun _ => by
      rw [queue,MpmcQueue.State.goto_pc_of_ne (by simp [Ne.symm hne])],hby⟩
  | access c' b spurious k r attempt next rest =>
    have hne : c' ≠ c := by
      rintro rfl
      exact hclient b rfl
    exact ⟨by rw [rest],fun _ => MpmcQueue.State.step_pc_of_ne next (by simp [Ne.symm hne]),hby⟩

theorem State.Brings.of_frame (h : e.Brings f c) (hcalls : e'.calls c = e.calls c)
    (hpcs : ∀ n, e'.queue.pc (.client c n) = e.queue.pc (.client c n))
    (hby : e'.enqueuedBy c = e.enqueuedBy c) : e'.Brings f c := by
  simpa only [State.Brings,hcalls,hpcs,hby] using h

omit [DecidableEq κ] in
theorem Api.returns_of_append {l todo : List Request} (h : l ++ todo = f.requests) (hn : l.length = n) :
    f.Returns n l := by
  subst hn
  cases f with
  | enqueueRequest creq =>
    simp only [Api.requests,List.append_eq_singleton_iff] at h
    rcases h with ⟨rfl,-⟩ | ⟨rfl,-⟩ <;> simp [Api.Returns]
  | enqueueBatch reqs =>
    obtain rfl : l ++ todo = reqs := h
    simp [Api.Returns]
  | _ => trivial

theorem State.Brings.client (h : e.Brings f c) (hc : Clients ok e) (hi : Ingress e)
    (hi' : Ingress e') (hs : ClientStep e c e') : e'.Brings f c := by
  unfold State.Brings at h ⊢
  have hset : ∀ p, (e.setCall c p).enqueuedBy c = e.enqueuedBy c := fun _ => rfl
  cases hs with
  | requestTest creq pc =>
    simp only [pc] at h
    obtain ⟨rfl,hby⟩ := h
    rw [State.setCall_calls_self]
    cases e.running
    · exact ⟨by simp,hby⟩
    · exact ⟨rfl,hby⟩
  | batchTest reqs pc =>
    simp only [pc] at h
    obtain ⟨rfl,hby⟩ := h
    rw [State.setCall_calls_self]
    cases e.running <;> simp [Api.Returns,Api.requests,hset,hby]
  | testFlag creq pc =>
    simp only [pc] at h
    obtain ⟨rfl,hby⟩ := h
    rw [State.setCall_calls_self]
    by_cases hflag : e.shared.soldOut creq.skuId = some true <;>
      simp [hflag,Api.Returns,Api.requests,hset,hby]
  | finish n pc =>
    simp only [pc] at h
    rw [State.setCall_calls_self]
    exact Api.returns_of_append h.1 h.2
  | attempt req todo n pc idle =>
    simp only [pc] at h
    rw [State.setCall_calls_self]
    dsimp only
    rw [if_neg (by simp [State.setCall,MpmcQueue.Pc.enqueued])]
    exact h
  | access k b q pc next =>
    obtain ⟨todo,pc⟩ | pc := pc
    · simp only [pc,← hi.inv.mem_tickets_iff] at h
      simp only [pc,← hi'.inv.mem_tickets_iff]
      cases (MpmcQueue.State.step_effect next).2.2 with
      | quiet tickets | took _ _ _ tickets =>
        simpa only [State.enqueuedBy,tickets] using h
      | won data item tickets =>
        have hfresh := hi'.inv.fresh_of_won tickets
        obtain ⟨rest,rfl⟩ : ∃ rest, todo = data :: rest := by
          rw [hc.present c k _ (by rw [pc]; rfl)] at item
          exact List.head?_eq_some_iff.mp item
        rw [if_neg hfresh] at h
        rw [if_pos (by simp [tickets])]
        have hby : State.enqueuedBy { e with queue := q } c = e.enqueuedBy c ++ [data] := by
          simp [State.enqueuedBy,tickets,Caller.isClient]
        simpa [hby] using h
    · simp [pc] at h
  | accepted todo n t data pc ret =>
    simp only [pc,ret] at h
    rw [State.setCall_calls_self]
    simpa [MpmcQueue.Pc.enqueued,hset] using h
  | full todo n data pc ret =>
    simp only [pc,ret] at h
    rw [State.setCall_calls_self]
    simp only [MpmcQueue.Pc.enqueued,Option.isSome_none,Bool.false_eq_true,if_false] at h
    exact Api.returns_of_append h.1 h.2
  | reentered pc | enter pc | reset pc | signal k pc | signalled k t data pc | unsignalled k data pc
  | reached pc | waiting pc | stillRunning pc | stopped pc | leave pc
  | checkOff enabled pc off | checkOn enabled pc on
  | resetExpectedSeq pc | resetGapCount pc | resetDupCount pc | resetLastSeqSeen pc
  | loadLastSeqSeen pc | loadGapCount lastSeq pc | loadDupCount lastSeq gap pc
  | polled won pc | poll b q pc =>
    simp [pc] at h

theorem State.Brings.next {a : Act κ} (h : e.Brings f c) (hc : Clients ok e) (hi : Ingress e)
    (hn : e.next a = some e') : e'.Brings f c := by
  by_cases hclient : ∃ b, a = .client c b
  · obtain ⟨b,rfl⟩ := hclient
    exact h.client hc hi (hi.next hn) (State.client_cases hn)
  · have hbusy : e.calls c ≠ .idle := fun hidle => by simp [State.Brings,hidle] at h
    obtain ⟨hcalls,hpcs,hby⟩ :=
      (State.next_calls hi hn).frame hc hbusy fun b hb => hclient ⟨b,hb⟩
    exact h.of_frame hcalls hpcs hby

theorem Clients.enqueuedBy_idle (h : Clients ok e) (hi : Ingress e) (hc : e.calls c = .idle) :
    e.enqueuedBy c = [] := by
  rw [State.enqueuedBy,List.map_eq_nil_iff,List.filter_eq_nil_iff]
  rintro ⟨caller,req⟩ hm hby
  cases caller with
  | dispatcher k => cases hby
  | client c' k =>
    obtain rfl : c' = c := of_decide_eq_true hby
    have hwon := hi.inv.mem_tickets_iff.mp (List.mem_map_of_mem hm)
    simp [h.fresh c' hc k,MpmcQueue.Pc.enqueued] at hwon

theorem reachable_clients (h : system.Reachable e) : Clients (fun _ => True) e := by
  obtain ⟨_,as,⟨checkCorrectness,barrierReached,rfl⟩,hr⟩ := h
  exact run_clients hr (System.along_of_forall fun _ _ _ _ _ => trivial)

/-- Whichever way a call of `EnqueueRequest` or `EnqueueBatch` is scheduled among the
others, the value it returns says which of its requests are in the queue: the first `n`
of a batch and no other, in their order. -/
theorem enqueue_returns {as : List (Act κ)} (h : system.Reachable s)
    (hr : system.Run s (.start c f :: as) e) (hret : e.calls c = .ret n) :
    f.Returns n (e.enqueuedBy c) ∧ (e.enqueuedBy c).Sublist e.accepted := by
  refine ⟨?_,?_⟩
  · cases hr with
    | @cons _ t _ _ _ hn hr =>
      have hstart : s.start c f = some t := hn
      have hidle : s.calls c = .idle := by
        cases State.start_calls hstart with
        | other noStart => exact absurd rfl (noStart c f)
        | start _ _ idle => exact idle
      have hby := (reachable_clients h).enqueuedBy_idle (reachable_flow h).1 hidle
      simp only [State.start,hidle] at hstart
      have hkeep : t.Brings f c → f.Returns n (e.enqueuedBy c) := by
        intro ht
        have he : e.Brings f c := (h.step hn).invariant_run
          (I := fun e => e.Brings f c)
          (fun _ _ _ hs hb hn => hb.next (reachable_clients hs) (reachable_flow hs).1 hn) hr ht
        simpa only [State.Brings,hret] using he
      cases f with
      | enqueueRequest creq =>
        cases hstart
        refine hkeep ?_
        rw [State.Brings,State.setCall_calls_self]
        exact ⟨rfl,hby⟩
      | enqueueBatch reqs =>
        cases hstart
        refine hkeep ?_
        rw [State.Brings,State.setCall_calls_self]
        exact ⟨rfl,hby⟩
      | _ => trivial
  · exact List.filter_sublist.map _

theorem enqueue_returns_three : threeState.calls true = .ret 3 ∧
    3 ≤ threeRequests.length ∧ threeState.enqueuedBy true = threeRequests.take 3 :=
  have hrun : system.Run (initEngine true 0) threeActs threeState :=
    System.run_of_exec (Option.some_get _).symm
  ⟨by decide +kernel,
    (enqueue_returns (.of_init (initEngine_init true 0)) hrun (by decide +kernel)).1⟩

end Enqueue
end Flashsale.CoreEngine
