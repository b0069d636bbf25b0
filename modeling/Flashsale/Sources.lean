import Flashsale.ClientSteps
import Flashsale.EngineClients
import Flashsale.Ledger
import Flashsale.MpmcRecords
import Mathlib.Data.List.Pairwise
set_option autoImplicit false

namespace Flashsale.Engine
open Transition
variable {κ : Type}

def Call.From (rs : List Payload) : Call → Prop
  | .requestTestRunning creq | .testFlag creq => rs = [creq.payload]
  | .batchTestRunning reqs => rs = payloads reqs
  | .enqueue p | .enqueuing p | .count p =>
      p.purpose = .once → p.todo.map (·.2.payload) = rs.drop p.tries
  | _ => True

def Call.Untried : Call → Prop
  | .idle | .requestTestRunning _ | .batchTestRunning _ | .testFlag _ => True
  | _ => False

/-- Each call `c` brings the requests `B c`. -/
def Brings (B : κ → List Payload) (_ : State κ) : Act κ → Prop
  | .start c f => payloads f.requests = B c
  | _ => True

structure Sourced (B : κ → List Payload) (e : State κ) : Prop where
  calls : ∀ c, (e.calls c).From (B c)
  queues : ∀ i, MpmcQueue.Carries
    (fun c' req => ∀ c k, c' = .client .once c k → (B c)[k]? = some req.payload) (e.shards i).queue
  untried : ∀ c, (e.calls c).Untried → ∀ i k, (e.shards i).queue.pc (.client .once c k) = .idle

/-- No two requests of the calls have one id. -/
def Distinct (B : κ → List Payload) : Prop :=
  ∀ c c' (k k' : Nat) (r r' : Payload), (B c)[k]? = some r → (B c')[k']? = some r' →
    r.requestId = r'.requestId → c = c' ∧ k = k'

section Calls
variable {rs : List Payload} {p : Push}

theorem Call.From.once (reqs : List Request) :
    (Call.enqueue ⟨.once,reqs.map (·.routed),0,0⟩).From (payloads reqs) := by
  intro _
  simp [payloads,Request.routed,Request.payload,Function.comp_def]

theorem Call.From.after {ok : Bool} (h : (Call.enqueue p).From rs) : (Call.enqueue (p.after ok)).From rs := by
  intro hp
  have hpur : p.purpose = .once := hp
  have htodo := h hpur
  simp only [Push.after,hpur,true_or,if_true,List.map_tail,htodo,List.tail_drop]

theorem Call.From.done : p.done.From rs := by
  unfold Push.done
  split <;> trivial

theorem Push.done_untried : ¬ p.done.Untried := by
  unfold Push.done
  split <;> exact id

end Calls

section Steps
variable {e e' : State κ} {a : Act κ} {c : κ} {B : κ → List Payload}
  {now : Int64} {spurious : Bool}

theorem initEngine_sourced (sold enq deq barrier : UInt64) :
    Sourced B (initEngine sold enq deq barrier : State κ) where
  calls _ := trivial
  queues i := by rintro c data ⟨⟩
  untried _ _ _ _ := rfl

variable [DecidableEq κ]

theorem ClientStep.calls_of_ne {c' : κ} (h : ClientStep e c now spurious e') (hne : c' ≠ c) :
    e'.calls c' = e.calls c' := by
  cases h <;> first | rfl | exact State.setCall_calls_of_ne hne

theorem State.start_calls {f : Api} (h : e.start c f = some e') :
    e.calls c = .idle ∧ ∀ c', c' ≠ c → e'.calls c' = e.calls c' := by
  unfold State.start at h
  split at h
  · rename_i hidle
    refine ⟨hidle,fun c' hne => ?_⟩
    cases f with
    | pollResult =>
      obtain ⟨q,-,rfl⟩ := Option.map_eq_some_iff.mp h
      exact State.setCall_calls_of_ne hne
    | _ =>
      cases h
      exact State.setCall_calls_of_ne hne
  · cases h

theorem State.next_calls (hn : e.next a = some e') (c : κ) : e'.calls c = e.calls c ∨
    (∃ f, a = .start c f ∧ e.calls c = .idle ∧ e.start c f = some e') ∨
    ∃ now spurious, a = .client c now spurious ∧ ClientStep e c now spurious e' := by
  cases a with
  | start c₀ f =>
    obtain ⟨hidle,hother⟩ := State.start_calls hn
    by_cases hc : c = c₀
    · subst hc
      exact .inr (.inl ⟨f,rfl,hidle,hn⟩)
    · exact .inl (hother c hc)
  | client c₀ now spurious =>
    by_cases hc : c = c₀
    · subst hc
      exact .inr (.inr ⟨now,spurious,rfl,State.client_cases hn⟩)
    · exact .inl ((State.client_cases hn).calls_of_ne hc)
  | dispatch i pop push spurious => exact .inl (congrFun (State.dispatch_calls hn) c)
  | work i inp =>
    obtain ⟨⟨sh,w⟩,-,rfl⟩ := Option.map_eq_some_iff.mp hn
    exact .inl rfl
  | stop => exact .inl (congrFun (State.stopEngine_calls hn) c)

theorem ClientStep.from {rs : List Payload} (h : ClientStep e c now spurious e')
    (hc : (e.calls c).From rs) :
    (e'.calls c).From rs ∧ ((e'.calls c).Untried → (e.calls c).Untried) := by
  have hset : ∀ {x : State κ} {p : Call}, p.From rs → (p.Untried → (e.calls c).Untried) →
      ((x.setCall c p).calls c).From rs ∧
        (((x.setCall c p).calls c).Untried → (e.calls c).Untried) := by
    intro x p hp hu
    rw [State.setCall_calls_self]
    exact ⟨hp,hu⟩
  cases h with
  | requestTest pc =>
    rw [pc] at hc
    refine hset ?_ (by simp [pc,Call.Untried])
    split <;> first | exact hc | trivial
  | @batchTest reqs pc =>
    rw [pc] at hc
    refine hset ?_ (by simp [pc,Call.Untried])
    split
    · rw [hc]
      exact Call.From.once reqs
    · trivial
  | warmUpTest pc =>
    refine hset ?_ ?_ <;> split <;> simp [Call.From,Call.Untried]
  | @available creq pc flag =>
    rw [pc] at hc
    refine hset ?_ (by simp [Call.Untried])
    rw [hc]
    exact Call.From.once [creq]
  | finish pc todo => exact hset Call.From.done fun hu => absurd hu Push.done_untried
  | attempt pc todo next =>
    rw [pc] at hc
    exact hset hc (by simp [Call.Untried])
  | accepted pc todo ret =>
    rw [pc] at hc
    refine hset ?_ (by split <;> simp [Call.Untried])
    split
    · exact hc
    · exact Call.From.after hc
  | full pc todo ret | count pc =>
    rw [pc] at hc
    exact hset (Call.From.after hc) (by simp [Call.Untried])
  | reset pc => exact hset nofun (by simp [Call.Untried])
  | access pc todo next | poll pc next => exact ⟨hc,id⟩
  | _ => exact hset trivial (by simp [Call.Untried])

theorem State.start_from {f : Api} (h : e.start c f = some e') :
    (e'.calls c).From (payloads f.requests) := by
  unfold State.start at h
  split at h
  · cases f with
    | pollResult =>
      obtain ⟨q,-,rfl⟩ := Option.map_eq_some_iff.mp h
      rw [State.setCall_calls_self]
      trivial
    | _ =>
      cases h
      rw [State.setCall_calls_self]
      trivial
  · cases h

theorem State.next_from (h : Sourced B e) (ha : Brings B e a) (hn : e.next a = some e') (c : κ) :
    (e'.calls c).From (B c) ∧ ((e'.calls c).Untried → (e.calls c).Untried) := by
  rcases State.next_calls hn c with he | ⟨f,rfl,hidle,hs⟩ | ⟨now,spurious,rfl,hs⟩
  · rw [he]
    exact ⟨h.calls c,id⟩
  · have hB : payloads f.requests = B c := ha
    exact ⟨hB ▸ State.start_from hs,fun _ => by rw [hidle]; trivial⟩
  · exact hs.from (h.calls c)

theorem ShardStep.sourced {i : ShardId} {s' : Shard κ} (h : Sourced B e) (hs : ShardStep e i a s') :
    MpmcQueue.Carries
      (fun c' req => ∀ c k, c' = .client .once c k → (B c)[k]? = some req.payload) s'.queue := by
  have hq := h.queues i
  cases hs with
  | @enqueue c p req todo q _ _ hc ht hn =>
    refine hq.next ?_ hn
    rintro c' data ⟨⟩ c₀ k he
    simp only [Push.caller,Caller.client.injEq] at he
    obtain ⟨hp,rfl,rfl⟩ := he
    have hfrom := h.calls c
    rw [hc] at hfrom
    have hget := congrArg List.head? (hfrom hp)
    rw [List.head?_drop,ht] at hget
    rw [Push.stamp_payload]
    exact hget.symm
  | attempt _ _ _ _ hn => exact hq.next (by rintro _ _ ⟨⟩) hn
  | call _ _ _ _ _ hn => exact hq.next (by rintro _ _ ⟨⟩) hn
  | dequeue _ _ _ _ hn => exact hq.next (by rintro _ _ ⟨⟩) hn
  | _ => exact hq

theorem Sourced.next (h : Sourced B e) (ha : Brings B e a) (hn : e.next a = some e') :
    Sourced B e' := by
  refine ⟨fun c => (State.next_from h ha hn c).1,fun i => ?_,fun c hc i k => ?_⟩
  · rcases State.next_shard hn i with hs | hs
    · rw [hs]; exact h.queues i
    · exact hs.sourced h
  · have hu := (State.next_from h ha hn c).2 hc
    have hidle := h.untried c hu i k
    rcases State.next_shard hn i with hs | hs
    · rw [hs]; exact hidle
    · rw [hs.client_pc fun p hp => ?_]
      · exact hidle
      · rcases hp with hp | hp <;> simp [hp,Call.Untried] at hu

end Steps

section Tickets
variable {e : State κ} {i : ShardId} {B : κ → List Payload} {x : Caller κ × Request}
  {ok : Payload → Prop}

theorem Sourced.of_ticket (h : Sourced B e) (hf : Fifo (e.shards i)) (hc : Clients ok e)
    (hx : x ∈ (e.shards i).queue.tickets) (hctl : ¬ Payload.Control x.2.payload) :
    ∃ c k, x.1 = .client .once c k ∧ (B c)[k]? = some x.2.payload := by
  obtain ⟨c',req⟩ := x
  obtain ⟨t,ht⟩ := List.mem_iff_getElem?.mp hx
  have hadm := hf.ingress.tickets_carry (hc.queues i) ht
  cases c' with
  | dispatcher k => exact hadm.elim
  | client purpose c k =>
    cases purpose with
    | once => exact ⟨c,k,rfl,hf.ingress.tickets_carry (h.queues i) ht c k rfl⟩
    | warmUp => exact absurd (.inl hadm) hctl
    | barrier => exact absurd (.inr hadm) hctl

/-- Where the calls' requests have distinct ids, so do those accepted into a shard. -/
theorem Sourced.accepted_distinct (h : Sourced B e) (hd : Distinct B) (hf : Fifo (e.shards i))
    (hc : Clients ok e) : (payloads (e.shards i).accepted).Pairwise
      fun r r' : Payload => ¬ r.Control → r.requestId ≠ r'.requestId := by
  have hnodup := hf.ingress.tickets_nodup
  rw [List.Nodup,List.pairwise_map] at hnodup
  rw [payloads,Shard.accepted,List.pairwise_map,List.pairwise_map]
  refine hnodup.imp_of_mem fun {x y} hx hy hne hctl hid => hne ?_
  have hctl' : ¬ Payload.Control y.2.payload := by
    rwa [Payload.Control,← hid]
  obtain ⟨c,k,hxc,hB⟩ := h.of_ticket hf hc hx hctl
  obtain ⟨c',k',hyc,hB'⟩ := h.of_ticket hf hc hy hctl'
  obtain ⟨rfl,rfl⟩ := hd c c' k k' _ _ hB hB' hid
  rw [hxc,hyc]

end Tickets

section Traces
variable [DecidableEq κ] {e e' : State κ} {as : List (Act κ)} {c : κ} {f : Api}
  {B : κ → List Payload}

def Act.brings (a : Act κ) (c : κ) : List Payload :=
  match a with
  | .start c' f => if c' = c then payloads f.requests else []
  | _ => []

def brought (as : List (Act κ)) (c : κ) : List Payload := as.flatMap (·.brings c)

theorem not_started (hr : system.Run e as e') (h : Clients (fun _ => True) e)
    (hc : e.calls c ≠ .idle) : .start c f ∉ as := by
  induction hr with
  | nil => simp
  | @cons e m e' a as hn _ ih =>
    have hadm : Admits (fun _ => True) e a := fun _ _ => trivial
    have hm := ih (h.next hadm hn) fun hidle => hc (State.next_idle h hadm hn hidle)
    rintro (_ | ⟨_,ha⟩)
    · exact hc (State.start_calls hn).1
    · exact hm ha

theorem brought_nil (h : ∀ f, .start c f ∉ as) : brought as c = [] := by
  refine List.flatMap_eq_nil_iff.mpr fun a ha => ?_
  cases a with
  | start c' f =>
    have hne : c' ≠ c := by
      rintro rfl
      exact h f ha
    simp [Act.brings,hne]
  | _ => rfl

theorem brought_eq (hr : system.Run e as e') (h : Clients (fun _ => True) e)
    (hs : .start c f ∈ as) : brought as c = payloads f.requests := by
  induction hr with
  | nil => cases hs
  | @cons e m e' a as hn hr ih =>
    have hadm : Admits (fun _ => True) e a := fun _ _ => trivial
    have hm := h.next hadm hn
    have hstart : ∀ {f'}, a = .start c f' → ∀ f, .start c f ∉ as := by
      rintro f' rfl f
      have hmoves : Moves (fun _ => True) e m c := State.start_moves (fun _ _ => trivial) hn
      exact not_started hr hm hmoves.2.2
    rcases List.mem_cons.mp hs with rfl | hmem
    · change (Act.start c f).brings c ++ brought as c = _
      rw [brought_nil (hstart rfl)]
      simp [Act.brings]
    · have hnone : a.brings c = [] := by
        cases a with
        | start c' f' =>
          have hne : c' ≠ c := by
            rintro rfl
            exact hstart rfl _ hmem
          simp [Act.brings,hne]
        | _ => rfl
      change a.brings c ++ brought as c = _
      rw [hnone,List.nil_append]
      exact ih hm hmem

theorem run_sourced {sold enq deq barrier : UInt64} {as₁ : List (Act κ)} {e₁ : State κ}
    (hr : system.Run (initEngine sold enq deq barrier) as e)
    (hr₁ : system.Run (initEngine sold enq deq barrier) as₁ e₁) (hsub : as₁ ⊆ as) :
    Sourced (brought as) e₁ := by
  refine hr₁.invariant_along (I := Sourced (brought as)) (P := Brings (brought as))
    (fun _ _ _ h ha hn => h.next ha hn) (System.along_of_forall fun a ha _ => ?_)
    (initEngine_sourced _ _ _ _)
  cases a with
  | start c f => exact (brought_eq hr (initEngine_clients _ _ _ _) (hsub ha)).symm
  | _ => trivial

theorem exists_start {k : Nat} {r : Payload} (h : (brought as c)[k]? = some r) :
    ∃ f, .start c f ∈ as := by
  by_contra hnone
  rw [brought_nil (by simpa using hnone)] at h
  cases h

theorem distinct_of_nodup (hr : system.Run e as e') (h : Clients (fun _ => True) e)
    (hids : ((as.flatMap Act.requests).map (·.requestId)).Nodup) : Distinct (brought as) := by
  rw [List.map_flatMap,List.nodup_flatMap] at hids
  obtain ⟨heach,hpair⟩ := hids
  have hget : ∀ {f : Api} {k : Nat} {r : Payload}, (payloads f.requests)[k]? = some r →
      (f.requests.map (·.requestId))[k]? = some r.requestId := by
    intro f k r hk
    rw [payloads,List.getElem?_map,Option.map_eq_some_iff] at hk
    obtain ⟨req,hreq,rfl⟩ := hk
    simp [hreq,Payload.requestId,Request.payload]
  intro c c' k k' r r' hk hk' hid
  obtain ⟨f,hf⟩ := exists_start hk
  rw [brought_eq hr h hf] at hk
  by_cases hcc : c = c'
  · subst hcc
    rw [brought_eq hr h hf] at hk'
    have hlt := (List.getElem?_eq_some_iff.mp (hget hk)).1
    exact ⟨rfl,(List.getElem?_inj hlt (heach _ hf)).mp ((hget hk).trans (hid ▸ (hget hk').symm))⟩
  · obtain ⟨f',hf'⟩ := exists_start hk'
    rw [brought_eq hr h hf'] at hk'
    have : Std.Symm (Function.onFun List.Disjoint
        fun a : Act κ => a.requests.map (·.requestId)) := ⟨fun _ _ hd => hd.symm⟩
    have hdisj := hpair.forall hf hf' (by simp [hcc])
    exact (hdisj (List.mem_of_getElem? (hget hk)) (hid ▸ List.mem_of_getElem? (hget hk'))).elim

end Traces
end Flashsale.Engine
