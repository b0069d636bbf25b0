import Flashsale.Balance
import Flashsale.Polls
import Flashsale.ServerSteps
import Flashsale.Tally
set_option autoImplicit false

namespace Flashsale.Engine
open Transition
variable {κ : Type}

def Call.returned : Call → Bool
  | .ret _ | .retResult _ => true
  | _ => false

def Call.polls : Call → Bool
  | .polling | .retResult _ => true
  | _ => false

section Steps
variable [DecidableEq κ] {e e' : State κ} {a : Act κ} {c : κ} {f : Api} {now : Int64}
  {spurious : Bool} {B : κ → List Payload}

theorem ClientStep.not_returned (h : ClientStep e c now spurious e') :
    (e.calls c).returned = false := by
  cases h with
  | _ pc => rw [pc]; rfl

theorem ClientStep.polls (h : ClientStep e c now spurious e') :
    (e'.calls c).polls = (e.calls c).polls := by
  cases h with
  | access pc todo next => rfl
  | poll pc next => rfl
  | @finish p pc todo =>
    rw [State.setCall_calls_self,pc]
    cases hp : p.purpose <;> simp [Push.done,hp,Call.polls]
  | requestTest pc | batchTest pc | warmUpTest pc | accepted pc =>
    rw [State.setCall_calls_self,pc]
    split <;> rfl
  | soldOut pc | available pc | attempt pc | full pc | count pc | reentered pc | enter pc
  | reset pc | reached pc | waiting pc | stillRunning pc | stopped pc | leave pc | polled pc =>
    rw [State.setCall_calls_self,pc]
    rfl

theorem State.next_returned (hn : e.next a = some e') (hc : (e.calls c).returned = true) :
    e'.calls c = e.calls c := by
  rcases State.next_calls hn c with he | ⟨f,-,hidle,-⟩ | ⟨now,spurious,-,hs⟩
  · exact he
  · rw [hidle] at hc
    cases hc
  · rw [hs.not_returned] at hc
    cases hc

theorem State.next_begun (hn : e.next a = some e') (hc : e.calls c ≠ .idle) :
    e'.calls c ≠ .idle := by
  rcases State.next_calls hn c with he | ⟨f,-,hidle,-⟩ | ⟨now,spurious,-,hs⟩
  · rwa [he]
  · exact absurd hidle hc
  · cases hs with
    | access pc todo next => exact hc
    | poll pc next => exact hc
    | requestTest pc | batchTest pc | warmUpTest pc | accepted pc =>
      rw [State.setCall_calls_self]
      split <;> simp
    | @finish p pc todo =>
      rw [State.setCall_calls_self]
      cases hp : p.purpose <;> simp [Push.done,hp]
    | _ =>
      rw [State.setCall_calls_self]
      simp

theorem State.start_polls (hs : e.start c f = some e') :
    (e'.calls c).polls = true ↔ f = .pollResult := by
  unfold State.start at hs
  split at hs
  · cases f with
    | pollResult =>
      obtain ⟨q,-,rfl⟩ := Option.map_eq_some_iff.mp hs
      rw [State.setCall_calls_self]
      exact iff_of_true rfl rfl
    | _ =>
      cases hs
      rw [State.setCall_calls_self]
      exact iff_of_false (by simp [Call.polls]) (by simp)
  · cases hs

theorem State.next_polls (hn : e.next a = some e') (ha : ∀ f, a ≠ .start c f) :
    (e'.calls c).polls = (e.calls c).polls := by
  rcases State.next_calls hn c with he | ⟨f,hf,-⟩ | ⟨now,spurious,-,hs⟩
  · rw [he]
  · exact absurd hf (ha f)
  · exact hs.polls

theorem Sourced.start (h : Sourced B e) (hs : e.start c f = some e') :
    Sourced (Function.update B c (payloads f.requests)) e' := by
  obtain ⟨hidle,-⟩ := State.start_calls hs
  have hbefore : Sourced (Function.update B c (payloads f.requests)) e := by
    refine ⟨fun c' => ?_,fun i caller req hitem c' k he => ?_,h.untried⟩
    · by_cases hc : c' = c
      · rw [hc,hidle]
        trivial
      · rw [Function.update_of_ne hc]
        exact h.calls c'
    · by_cases hc : c' = c
      · subst hc he
        rw [h.untried c' (by rw [hidle]; trivial) i k] at hitem
        cases hitem
      · rw [Function.update_of_ne hc]
        exact h.queues i caller req hitem c' k he
  have hbrings : Brings (Function.update B c (payloads f.requests)) e (.start c f) := by
    rw [Brings,Function.update_self]
  exact hbefore.next hbrings hs

end Steps
end Flashsale.Engine

namespace Flashsale.Server
open Cache Engine Backend Transition
variable {κ : Type} [DecidableEq κ]

/-- Each call of `EnqueueRequest` brings its request, the other calls none, and
those that returned did so with 1 where the request counts as accepted. -/
structure Handled (B : κ → List Payload) (s : State κ) : Prop where
  sourced : Sourced B s.engine
  requests : ∀ x ∈ s.callers, B x.1 = [creqOf x.2]
  others : ∀ c, B c ≠ [] → ∃ m, (c,m) ∈ s.callers
  nodup : (s.callers.map Prod.fst).Nodup
  begun : ∀ x ∈ s.callers, s.engine.calls x.1 ≠ .idle
  accepted : ∀ x ∈ s.accepted, s.engine.calls x.1 = .ret 1
  rejected : ∀ x ∈ s.rejected, ∃ n, n ≠ 1 ∧ s.engine.calls x.1 = .ret n

/-- Each call of `PollResult` is still awaited, or returned nothing, or its
result was taken note of once. -/
structure Polled (s : State κ) : Prop where
  returned : ∀ x ∈ s.received, s.engine.calls x.1 = .retResult (some x.2)
  polls : ∀ c ∈ s.polling, (s.engine.calls c).polls = true
  nodup : (s.received.map Prod.fst + s.polling).Nodup
  all : ∀ c, (s.engine.calls c).polls = true →
    c ∈ s.polling ∨ s.engine.calls c = .retResult none ∨ ∃ res, (c,res) ∈ s.received

section Steps
variable {s s' : State κ} {a : Act κ} {B : κ → List Payload} {c : κ} {f : Api}
  {e : Engine.State κ} {b : Engine.Act κ}

theorem Handled.accepted_next (h : Handled B s) (hn : s.engine.next b = some e) :
    ∀ x ∈ s.accepted, e.calls x.1 = .ret 1 := by
  intro x hx
  have hret := h.accepted x hx
  rw [State.next_returned hn (by rw [hret]; rfl),hret]

theorem Handled.rejected_next (h : Handled B s) (hn : s.engine.next b = some e) :
    ∀ x ∈ s.rejected, ∃ n, n ≠ 1 ∧ e.calls x.1 = .ret n := by
  intro x hx
  obtain ⟨n,hne,hret⟩ := h.rejected x hx
  exact ⟨n,hne,by rw [State.next_returned hn (by rw [hret]; rfl),hret]⟩

theorem Handled.begun_next (h : Handled B s) (hn : s.engine.next b = some e) :
    ∀ x ∈ s.callers, e.calls x.1 ≠ .idle := fun x hx => State.next_begun hn (h.begun x hx)

theorem Handled.ne_of_start (h : Handled B s) (hs : s.engine.start c f = some e) :
    ∀ x ∈ s.callers, x.1 ≠ c := by
  rintro x hx rfl
  exact h.begun x hx (State.start_calls hs).1

theorem Handled.enqueue {m : Member} (h : Handled B s)
    (hs : s.engine.start c (.enqueueRequest (creq m)) = some e) :
    Handled (Function.update B c [creqOf m])
      { s with
        engine := e
        handlers := s.handlers.erase m
        enqueuing := (c,m) ::ₘ s.enqueuing } := by
  have hnext : s.engine.next (.start c (.enqueueRequest (creq m))) = some e := hs
  have hne := h.ne_of_start hs
  have hcallers : ∀ x, x ∈ (c,m) ::ₘ s.enqueuing + s.accepted + s.rejected ↔
      x = (c,m) ∨ x ∈ s.callers := by
    intro x
    rw [Multiset.cons_add,Multiset.cons_add,Multiset.mem_cons]
    rfl
  refine ⟨h.sourced.start hs,fun x hx => ?_,fun c' hc' => ?_,?_,fun x hx => ?_,
    h.accepted_next hnext,h.rejected_next hnext⟩
  · rcases (hcallers x).mp hx with rfl | hx
    · rw [Function.update_self]
    · rw [Function.update_of_ne (hne x hx),h.requests x hx]
  · by_cases hc : c' = c
    · subst hc
      exact ⟨m,(hcallers _).mpr (.inl rfl)⟩
    · rw [Function.update_of_ne hc] at hc'
      obtain ⟨m',hm'⟩ := h.others c' hc'
      exact ⟨m',(hcallers _).mpr (.inr hm')⟩
  · have hfst : ((c,m) ::ₘ s.enqueuing + s.accepted + s.rejected).map Prod.fst =
        c ::ₘ s.callers.map Prod.fst := by
      rw [Multiset.cons_add,Multiset.cons_add,Multiset.map_cons]
      rfl
    refine (congrArg Multiset.Nodup hfst).mpr (Multiset.nodup_cons.mpr ⟨fun hc => ?_,h.nodup⟩)
    obtain ⟨x,hx,hxc⟩ := Multiset.mem_map.mp hc
    exact hne x hx hxc
  · rcases (hcallers x).mp hx with rfl | hx
    · refine fun hidle => ?_
      unfold State.start at hs
      rw [(State.start_calls (f := .enqueueRequest (creq m)) hnext).1] at hs
      cases hs
      simp [State.setCall] at hidle
    · exact h.begun_next hnext x hx

theorem Handled.start (h : Handled B s) (hs : s.engine.start c f = some e) (hf : f.requests = [])
    (he : s'.engine = e ∧ s'.enqueuing = s.enqueuing ∧ s'.accepted = s.accepted ∧
      s'.rejected = s.rejected) : Handled (Function.update B c []) s' := by
  obtain ⟨rfl,henq,hacc,hrej⟩ := he
  have hnext : s.engine.next (.start c f) = some s'.engine := hs
  have hne := h.ne_of_start hs
  have hsourced := h.sourced.start hs
  rw [hf] at hsourced
  have hsame : s'.callers = s.callers := by rw [State.callers,henq,hacc,hrej]; rfl
  refine ⟨hsourced,fun x hx => ?_,fun c' hc' => ?_,?_,?_,?_,?_⟩
  · rw [hsame] at hx
    rw [Function.update_of_ne (hne x hx),h.requests x hx]
  · rw [hsame]
    by_cases hc : c' = c
    · subst hc
      rw [Function.update_self] at hc'
      exact absurd rfl hc'
    · rw [Function.update_of_ne hc] at hc'
      exact h.others c' hc'
  · rw [hsame]
    exact h.nodup
  · rw [hsame]
    exact h.begun_next hnext
  · rw [hacc]
    exact h.accepted_next hnext
  · rw [hrej]
    exact h.rejected_next hnext

theorem Handled.engine (h : Handled B s) (hb : ∀ c f, b ≠ .start c f)
    (hn : s.engine.next b = some e) : Handled B (s.setEngine e) := by
  have hbrings : Brings B s.engine b := by
    cases b with
    | start c f => exact absurd rfl (hb c f)
    | _ => trivial
  exact ⟨h.sourced.next hbrings hn,h.requests,h.others,h.nodup,h.begun_next hn,h.accepted_next hn,
    h.rejected_next hn⟩

omit [DecidableEq κ] in
theorem Handled.enqueued {m : Member} (h : Handled B s) {enqueuing accepted rejected : Multiset (κ × Member)}
    (hcallers : enqueuing + accepted + rejected = s.callers)
    (ha : ∀ x ∈ accepted, x = (c,m) ∧ s.engine.calls c = .ret 1 ∨ x ∈ s.accepted)
    (hr : ∀ x ∈ rejected, x = (c,m) ∧ (∃ n, n ≠ 1 ∧ s.engine.calls c = .ret n) ∨ x ∈ s.rejected)
    (hs : s'.engine = s.engine ∧ s'.enqueuing = enqueuing ∧ s'.accepted = accepted ∧
      s'.rejected = rejected) : Handled B s' := by
  obtain ⟨hengine,henq,hacc,hrej⟩ := hs
  have hsame : s'.callers = s.callers := by
    rw [State.callers,henq,hacc,hrej,hcallers]
  refine ⟨?_,?_,?_,?_,?_,fun x hx => ?_,fun x hx => ?_⟩
  · rw [hengine]; exact h.sourced
  · rw [hsame]; exact h.requests
  · rw [hsame]; exact h.others
  · rw [hsame]; exact h.nodup
  · rw [hsame,hengine]; exact h.begun
  · rw [hengine]
    rcases ha x (hacc ▸ hx) with ⟨rfl,hret⟩ | hx
    · exact hret
    · exact h.accepted x hx
  · rw [hengine]
    rcases hr x (hrej ▸ hx) with ⟨rfl,hret⟩ | hx
    · exact hret
    · exact h.rejected x hx

theorem Handled.step (h : Handled B s) (hs : Step s a s') : ∃ B', Handled B' s' := by
  cases hs with
  | enqueue handled start => exact ⟨_,h.enqueue start⟩
  | @accepted c m calling ret =>
    refine ⟨B,h.enqueued (c := c) (m := m) ?_ (fun x hx => ?_) (fun x hx => .inr hx) ⟨rfl,rfl,rfl,rfl⟩⟩
    · change s.enqueuing.erase (c,m) + (c,m) ::ₘ s.accepted + s.rejected = s.callers
      rw [Multiset.add_cons,← Multiset.cons_add,Multiset.cons_erase calling]
      rfl
    · exact (Multiset.mem_cons.mp hx).imp (fun he => ⟨he,ret⟩) id
  | @refused c m n r calling ret ne =>
    refine ⟨B,h.enqueued (c := c) (m := m) ?_ (fun x hx => .inr hx) (fun x hx => ?_) ⟨rfl,rfl,rfl,rfl⟩⟩
    · change s.enqueuing.erase (c,m) + s.accepted + (c,m) ::ₘ s.rejected = s.callers
      rw [Multiset.add_cons,← Multiset.cons_add,← Multiset.cons_add,Multiset.cons_erase calling]
      rfl
    · exact (Multiset.mem_cons.mp hx).imp (fun he => ⟨he,n,ne,ret⟩) id
  | poll start => exact ⟨_,h.start start rfl ⟨rfl,rfl,rfl,rfl⟩⟩
  | control act start =>
    refine ⟨_,h.start start ?_ ⟨rfl,rfl,rfl,rfl⟩⟩
    rcases act with ⟨-,rfl⟩ | ⟨-,rfl⟩ <;> rfl
  | engine act next => exact ⟨B,h.engine act next⟩
  | deducted admits script | answered r script | undo asked | nothing polling ret
  | result polling ret | cleanup asked =>
    exact ⟨B,h.sourced,h.requests,h.others,h.nodup,h.begun,h.accepted,h.rejected⟩

theorem reachable_handled (h : system.Reachable s) : ∃ B, Handled B s := by
  refine h.invariant (I := fun s => ∃ B, Handled B s) ?_
    fun s a s' ⟨B,h⟩ hn => h.step (State.next_cases hn)
  rintro s ⟨stock,e,⟨sold,enq,deq,barrier,rfl⟩,rfl⟩
  refine ⟨fun _ => [],initEngine_sourced sold enq deq barrier,?_,fun c hc => absurd rfl hc,?_,?_,?_,?_⟩
  · rintro x hx
    cases Multiset.notMem_zero x hx
  · exact Multiset.nodup_zero
  · rintro x hx
    cases Multiset.notMem_zero x hx
  · rintro x hx
    cases Multiset.notMem_zero x hx
  · rintro x hx
    cases Multiset.notMem_zero x hx

omit [DecidableEq κ] in
theorem Polled.quiet (h : Polled s) (he : s'.received = s.received ∧ s'.polling = s.polling)
    (hret : ∀ c, (s.engine.calls c).returned = true → s'.engine.calls c = s.engine.calls c)
    (hpolls : ∀ c, (s'.engine.calls c).polls = (s.engine.calls c).polls) : Polled s' := by
  refine ⟨fun x hx => ?_,fun c hc => ?_,?_,fun c hc => ?_⟩
  · have hx' := h.returned x (he.1 ▸ hx)
    rw [hret _ (by rw [hx']; rfl),hx']
  · rw [hpolls]
    exact h.polls c (he.2 ▸ hc)
  · rw [he.1,he.2]
    exact h.nodup
  · rw [hpolls] at hc
    rw [he.1,he.2]
    exact (h.all c hc).imp_right (Or.imp_left fun hnone => by rw [hret c (by rw [hnone]; rfl),hnone])

theorem Polled.start (h : Polled s) (hs : s.engine.start c f = some e) (hf : f ≠ .pollResult)
    (he : s'.engine = e ∧ s'.received = s.received ∧ s'.polling = s.polling) : Polled s' := by
  obtain ⟨rfl,hsame⟩ := he
  obtain ⟨hidle,hother⟩ := State.start_calls hs
  have hnext : s.engine.next (.start c f) = some s'.engine := hs
  refine h.quiet hsame (fun c' hc' => State.next_returned hnext hc') fun c' => ?_
  by_cases hc : c' = c
  · subst hc
    rw [hidle]
    exact eq_false_of_ne_true fun hp => hf ((State.start_polls hs).mp hp)
  · rw [hother c' hc]

theorem Polled.poll (h : Polled s) (hs : s.engine.start c .pollResult = some e) :
    Polled { s with engine := e, polling := c ::ₘ s.polling } := by
  obtain ⟨hidle,hother⟩ := State.start_calls hs
  have hpolls := (State.start_polls hs).mpr rfl
  have hnot : (s.engine.calls c).polls = false := by rw [hidle]; rfl
  have hnew : c ∉ s.received.map Prod.fst + s.polling := by
    intro hc
    rcases Multiset.mem_add.mp hc with hc | hc
    · obtain ⟨x,hx,rfl⟩ := Multiset.mem_map.mp hc
      rw [h.returned x hx] at hidle
      cases hidle
    · rw [h.polls c hc] at hnot
      cases hnot
  refine ⟨fun x hx => ?_,fun c' hc' => ?_,?_,fun c' hc' => ?_⟩
  · have hne : x.1 ≠ c := fun he =>
      hnew (Multiset.mem_add.mpr (.inl (Multiset.mem_map.mpr ⟨x,hx,he⟩)))
    exact (hother _ hne).trans (h.returned x hx)
  · rcases Multiset.mem_cons.mp hc' with rfl | hc'
    · exact hpolls
    · have hne : c' ≠ c := fun he => hnew (Multiset.mem_add.mpr (.inr (he ▸ hc')))
      exact (congrArg _ (hother c' hne)).trans (h.polls c' hc')
  · rw [Multiset.add_cons]
    exact Multiset.nodup_cons.mpr ⟨hnew,h.nodup⟩
  · by_cases hc : c' = c
    · exact .inl (Multiset.mem_cons.mpr (.inl hc))
    · have hcall := hother c' hc
      refine (h.all c' (hcall ▸ hc')).imp (Multiset.mem_cons_of_mem ·) ?_
      exact Or.imp_left fun hnone => hcall.trans hnone

theorem Polled.step (h : Polled s) (hs : Step s a s') : Polled s' := by
  cases hs with
  | poll start => exact h.poll start
  | enqueue handled start => exact h.start start (by simp) ⟨rfl,rfl,rfl⟩
  | control act start =>
    refine h.start start ?_ ⟨rfl,rfl,rfl⟩
    rcases act with ⟨-,rfl⟩ | ⟨-,rfl⟩ <;> simp
  | engine act next =>
    exact h.quiet ⟨rfl,rfl⟩ (fun c hc => State.next_returned next hc) fun c =>
      State.next_polls next fun f => act c f
  | @nothing c polling ret =>
    have hmem : ∀ c', c' ∈ s.polling ↔ c' = c ∨ c' ∈ s.polling.erase c := fun c' => by
      rw [← Multiset.mem_cons,Multiset.cons_erase polling]
    refine ⟨h.returned,fun c' hc' => h.polls c' ((hmem c').mpr (.inr hc')),?_,fun c' hc' => ?_⟩
    · exact Multiset.nodup_of_le (Multiset.add_le_add_left (Multiset.erase_le _ _)) h.nodup
    · rcases h.all c' hc' with hp | hp
      · rcases (hmem c').mp hp with rfl | hp
        · exact .inr (.inl ret)
        · exact .inl hp
      · exact .inr hp
  | @result c res polling ret =>
    have hmem : ∀ c', c' ∈ s.polling ↔ c' = c ∨ c' ∈ s.polling.erase c := fun c' => by
      rw [← Multiset.mem_cons,Multiset.cons_erase polling]
    refine ⟨fun x hx => ?_,fun c' hc' => h.polls c' ((hmem c').mpr (.inr hc')),?_,fun c' hc' => ?_⟩
    · rcases Multiset.mem_cons.mp hx with rfl | hx
      · exact ret
      · exact h.returned x hx
    · have hnodup := h.nodup
      rw [← Multiset.cons_erase polling,Multiset.add_cons] at hnodup
      simpa using hnodup
    · rcases h.all c' hc' with hp | hp | ⟨res',hr⟩
      · rcases (hmem c').mp hp with rfl | hp
        · exact .inr (.inr ⟨res,Multiset.mem_cons_self _ _⟩)
        · exact .inl hp
      · exact .inr (.inl hp)
      · exact .inr (.inr ⟨res',Multiset.mem_cons_of_mem hr⟩)
  | deducted admits script | answered r script | accepted calling ret | refused r calling ret ne
  | undo asked | cleanup asked => exact ⟨h.returned,h.polls,h.nodup,h.all⟩

theorem reachable_polled (h : system.Reachable s) : Polled s := by
  refine h.invariant ?_ fun s a s' h hn => h.step (State.next_cases hn)
  rintro s ⟨stock,e,⟨sold,enq,deq,barrier,rfl⟩,rfl⟩
  refine ⟨?_,?_,Multiset.nodup_zero,nofun⟩
  · rintro x hx
    cases Multiset.notMem_zero x hx
  · rintro c hc
    cases Multiset.notMem_zero c hc

end Steps

section Totals
variable {s : State κ} {B : κ → List Payload} {i : ShardId} {c : κ} {k : Nat} {req : Request}
  {r : Payload}

def brought (x : κ × Member) : κ × Payload := (x.1,creqOf x.2)

theorem Handled.of_ticket (h : Handled B s) (hr : Engine.system.Reachable s.engine)
    (hx : (.client .once c k,req) ∈ (s.engine.shards i).queue.tickets) :
    k = 0 ∧ shardIdx req.payload.1 = i ∧ ∃ m, (c,m) ∈ s.callers ∧ req.payload = creqOf m := by
  have hf := reachable_fifo hr i
  obtain ⟨t,ht⟩ := List.mem_iff_getElem?.mp hx
  have hget := hf.ingress.tickets_carry (h.sourced.queues i) ht c k rfl
  have hshard := ((reachable_clients hr).admitted_tickets hf _ hx).1
  have hne : B c ≠ [] := fun he => by simp [he] at hget
  obtain ⟨m,hm⟩ := h.others c hne
  have hB := h.requests _ hm
  rw [hB] at hget
  cases k with
  | succ k => simp at hget
  | zero => exact ⟨rfl,hshard,m,hm,(Option.some.inj hget).symm⟩

theorem Handled.shard_onces_nodup (h : Handled B s) (hr : Engine.system.Reachable s.engine)
    (i : ShardId) : (s.engine.shards i).onces.Nodup := by
  have htickets := (reachable_fifo hr i).ingress.tickets_nodup
  rw [List.Nodup,List.pairwise_map] at htickets
  rw [Shard.onces,List.Nodup,List.pairwise_filterMap]
  refine htickets.imp_of_mem fun {x y} hx hy hne b hb b' hb' he => hne ?_
  have hcaller : ∀ {x : Caller κ × Request} {b : κ × Payload},
      x ∈ (s.engine.shards i).queue.tickets → onceOf x = some b → x.1 = .client .once b.1 0 := by
    rintro ⟨c',req⟩ b hx hb
    cases c' with
    | dispatcher k => cases hb
    | client purpose c k =>
      cases purpose with
      | once =>
        cases hb
        rw [(h.of_ticket hr hx).1]
      | warmUp | barrier => cases hb
  rw [hcaller hx hb,hcaller hy hb',he]

/-- The engine holds each request of the server once. -/
theorem Handled.onces_nodup (h : Handled B s) (hr : Engine.system.Reachable s.engine) :
    s.engine.onces.Nodup := by
  rw [Multiset.nodup_iff_count_le_one]
  rintro ⟨c,r⟩
  rw [State.onces,Multiset.count_sum',Finset.sum_eq_single (shardIdx r.1)]
  · exact Multiset.nodup_iff_count_le_one.mp (Multiset.coe_nodup.mpr (h.shard_onces_nodup hr _)) _
  · intro j _ hj
    refine Multiset.count_eq_zero.mpr fun hmem => hj ?_
    obtain ⟨k,req,hx,rfl⟩ := mem_onces.mp (Multiset.mem_coe.mp hmem)
    exact (h.of_ticket hr hx).2.1.symm
  · exact fun hno => absurd (Finset.mem_univ _) hno

theorem Handled.onces_le (h : Handled B s) (hr : Engine.system.Reachable s.engine) :
    s.engine.onces ≤ (s.enqueuing + s.accepted).map brought := by
  refine (Multiset.le_iff_subset (h.onces_nodup hr)).mpr ?_
  rintro ⟨c,r⟩ hx
  obtain ⟨i,hx⟩ := State.mem_onces.mp hx
  obtain ⟨k,req,hticket,rfl⟩ := mem_onces.mp hx
  obtain ⟨rfl,-,m,hm,hreq⟩ := h.of_ticket hr hticket
  refine Multiset.mem_map.mpr ⟨(c,m),?_,by rw [brought,hreq]⟩
  refine (Multiset.mem_add.mp hm).resolve_right fun hrej => ?_
  obtain ⟨n,hne,hret⟩ := h.rejected _ hrej
  have htally := reachable_tally hr c
  rw [hret] at htally
  have hwon := (Fifo.won_iff fun i => reachable_fifo hr i).mpr ⟨i,req,hticket⟩
  exact hne ((htally.single h.sourced (h.requests _ hm)).mpr hwon)

theorem Handled.onces_eq (h : Handled B s) (hr : Engine.system.Reachable s.engine)
    (hq : s.enqueuing = 0) : s.engine.onces = s.accepted.map brought := by
  have hle := h.onces_le hr
  rw [hq,Multiset.zero_add] at hle
  have hnodup : (s.accepted.map brought).Nodup := by
    refine Multiset.Nodup.of_map Prod.fst ?_
    rw [Multiset.map_map]
    refine Multiset.nodup_of_le (Multiset.map_le_map ?_) h.nodup
    exact (Multiset.le_add_left _ _).trans (Multiset.le_add_right _ _)
  refine le_antisymm hle ((Multiset.le_iff_subset hnodup).mpr ?_)
  intro x hx
  obtain ⟨⟨c,m⟩,hm,rfl⟩ := Multiset.mem_map.mp hx
  have hcaller : (c,m) ∈ s.callers :=
    Multiset.mem_add.mpr (.inl (Multiset.mem_add.mpr (.inr hm)))
  have htally := reachable_tally hr c
  rw [h.accepted _ hm] at htally
  have hwon := (htally.single h.sourced (h.requests _ hcaller)).mp rfl
  obtain ⟨i,req,hticket⟩ := (Fifo.won_iff fun i => reachable_fifo hr i).mp hwon
  obtain ⟨-,-,m',hm',hreq⟩ := h.of_ticket hr hticket
  have hsame : creqOf m' = creqOf m := by
    have hB := (h.requests (c,m') hm').symm.trans (h.requests (c,m) hcaller)
    exact (List.cons.inj hB).1
  exact State.mem_onces.mpr ⟨i,mem_onces.mpr ⟨0,req,hticket,hreq.trans hsame⟩⟩

/-- What the result workers received was posted, no result twice. -/
theorem Polled.received_le (h : Polled s) (hr : Engine.system.Reachable s.engine) :
    s.received.map Prod.snd ≤ s.engine.results :=
  Collected.le ⟨h.returned,Multiset.nodup_of_le (Multiset.le_add_right _ _) h.nodup⟩
    (reachable_results hr) (reachable_asked hr)

theorem Polled.received_eq (h : Polled s) (hr : Engine.system.Reachable s.engine)
    (hq : s.polling = 0) (hempty : s.engine.shared.resultQueue.takers.length =
      s.engine.shared.resultQueue.tickets.length) : s.received.map Prod.snd = s.engine.results := by
  refine Collected.eq ⟨h.returned,Multiset.nodup_of_le (Multiset.le_add_right _ _) h.nodup⟩
    (reachable_results hr) (reachable_asked hr) hempty fun c => ?_
  have hall := h.all c
  rw [hq] at hall
  constructor
  · intro hpolling
    rw [hpolling] at hall
    rcases hall rfl with hc | hc | ⟨res,hc⟩
    · exact Multiset.notMem_zero c hc
    · cases hc
    · have := h.returned _ hc
      rw [hpolling] at this
      cases this
  · intro res hret
    rw [hret] at hall
    rcases hall rfl with hc | hc | ⟨res',hc⟩
    · exact absurd hc (Multiset.notMem_zero c)
    · cases hc
    · have := h.returned _ hc
      rw [hret] at this
      cases this
      exact hc

theorem unsold_received_le (h : system.Reachable s) :
    unsold (s.received.map Prod.snd) ≤ ((s.enqueuing + s.accepted).map Prod.snd).map creqOf := by
  obtain ⟨B,hh⟩ := reachable_handled h
  have hr := reachable_engine h
  have hreceived : unsold (s.received.map Prod.snd) ≤ unsold s.engine.results :=
    Multiset.map_le_map (Multiset.filter_le_filter _ ((reachable_polled h).received_le hr))
  have hunsold := (reachable_results hr).unsold_le (reachable_fifo hr) (reachable_clients hr)
    (reachable_posted hr)
  have honces := Multiset.map_le_map (f := Prod.snd) (hh.onces_le hr)
  rw [Multiset.map_map] at honces
  rw [Multiset.map_map]
  exact hreceived.trans (hunsold.trans honces)

end Totals
end Flashsale.Server
