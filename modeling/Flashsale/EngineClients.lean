import Flashsale.EngineFifo
set_option autoImplicit false

namespace Flashsale.Engine
open Transition
variable {κ : Type}

abbrev Payload := Int64 × Int32 × UInt64 × UInt64

/-- What a loop of enqueues may bring to shard `i` when the clients' requests satisfy `ok`. -/
def Admission (ok : Payload → Prop) (i : ShardId) : Purpose → Payload → Prop
  | .once, r => shardIdx r.1 = i ∧ ok r
  | .warmUp, r => r.2.2.2 = 0
  | .barrier, r => r.2.2.2 = barrierId

def Admitted (ok : Payload → Prop) (i : ShardId) : Caller κ → Payload → Prop
  | .client purpose _ _, r => Admission ok i purpose r
  | .dispatcher _, _ => False

def Api.requests : Api → List Request
  | .enqueueRequest creq => [creq]
  | .enqueueBatch reqs => reqs
  | .warmUpEngine | .waitEngineDrained | .pollResult => []

def Act.requests : Act κ → List Request
  | .start _ f => f.requests
  | _ => []

def Admits (ok : Payload → Prop) (_ : State κ) (a : Act κ) : Prop := ∀ req ∈ a.requests, ok req.payload

def PushOk (ok : Payload → Prop) (p : Push) : Prop :=
  ∀ x ∈ p.todo, Admission ok x.1 p.purpose x.2.payload

def CallOk (ok : Payload → Prop) : Call → Prop
  | .requestTestRunning creq | .testFlag creq => ok creq.payload
  | .batchTestRunning reqs => ∀ req ∈ reqs, ok req.payload
  | .enqueue p | .enqueuing p | .count p => PushOk ok p
  | _ => True

structure Clients (ok : Payload → Prop) (e : State κ) : Prop where
  calls : ∀ c, CallOk ok (e.calls c)
  queues : ∀ i, MpmcQueue.Carries (fun c req => Admitted ok i c req.payload) (e.shards i).queue
  fresh : ∀ c, e.calls c = .idle → ∀ i p k, (e.shards i).queue.pc (.client p c k) = .idle

section Calls
variable {ok : Payload → Prop} {p : Push}

theorem PushOk.after (h : PushOk ok p) (b : Bool) : PushOk ok (p.after b) := by
  intro x hx
  refine h x ?_
  simp only [Push.after] at hx
  split at hx
  · exact List.mem_of_mem_tail hx
  · exact hx

theorem CallOk.done : CallOk ok p.done := by
  unfold Push.done
  split <;> trivial

theorem pushOk_once {reqs : List Request} (h : ∀ req ∈ reqs, ok req.payload) :
    PushOk ok ⟨.once,reqs.map (·.routed),0,0⟩ := by
  intro x hx
  obtain ⟨req,hr,rfl⟩ := List.mem_map.mp hx
  exact ⟨rfl,h req hr⟩

theorem pushOk_warmUp : PushOk ok ⟨.warmUp,warmUpRequests,0,0⟩ := by
  intro x hx
  simp only [warmUpRequests,List.mem_map] at hx
  obtain ⟨i,-,rfl⟩ := hx
  exact rfl

theorem pushOk_barrier (tries : Nat) : PushOk ok ⟨.barrier,barrierRequests,tries,0⟩ := by
  intro x hx
  obtain ⟨i,-,rfl⟩ := List.mem_map.mp hx
  exact rfl

end Calls

section Steps
variable {ok : Payload → Prop} {e e' : State κ} {c : κ}

def Moves (ok : Payload → Prop) (e e' : State κ) (c : κ) : Prop :=
  (∀ c', c' ≠ c → e'.calls c' = e.calls c') ∧ CallOk ok (e'.calls c) ∧ e'.calls c ≠ .idle

theorem Moves.of_eq (he : e'.calls = e.calls) (hp : CallOk ok (e.calls c))
    (hne : e.calls c ≠ .idle) : Moves ok e e' c := by
  rw [← he] at hp hne
  exact ⟨fun c' _ => by rw [he],hp,hne⟩

theorem State.stopEngine_calls (h : e.stopEngine = some e') : e'.calls = e.calls := by
  unfold State.stopEngine at h
  repeat' split at h
  all_goals cases h
  all_goals rfl

theorem initEngine_clients (sold enq deq barrier : UInt64) :
    Clients ok (initEngine sold enq deq barrier : State κ) where
  calls _ := trivial
  queues i := by rintro c data ⟨⟩
  fresh _ _ _ _ _ := rfl

theorem Clients.admitted (h : Clients ok e) {i : ShardId} (hf : Fifo (e.shards i)) {r : Payload}
    (hr : r ∈ payloads (e.shards i).accepted) : ∃ c : Caller κ, Admitted ok i c r := by
  simp only [payloads,Shard.accepted,List.map_map,List.mem_map] at hr
  obtain ⟨⟨c,req⟩,hm,rfl⟩ := hr
  obtain ⟨t,ht⟩ := List.mem_iff_getElem?.mp hm
  exact ⟨c,hf.ingress.tickets_carry (h.queues i) ht⟩

variable [DecidableEq κ]

theorem State.setCall_calls_self (e : State κ) (c : κ) (p : Call) : (e.setCall c p).calls c = p := by
  simp [State.setCall]

theorem State.setCall_calls_of_ne {c' : κ} {p : Call} (h : c' ≠ c) :
    (e.setCall c p).calls c' = e.calls c' := by simp [State.setCall,h]

theorem Moves.of_set {p : Call} (he : e'.calls = (e.setCall c p).calls) (hp : CallOk ok p)
    (hne : p ≠ .idle) : Moves ok e e' c := by
  refine ⟨fun c' hc => ?_,?_,?_⟩
  · rw [he,State.setCall_calls_of_ne hc]
  · rw [he,State.setCall_calls_self]
    exact hp
  · rw [he,State.setCall_calls_self]
    exact hne

theorem State.client_moves {now : Int64} {spurious : Bool} (h : Clients ok e)
    (hs : e.client c now spurious = some e') : Moves ok e e' c ∧ e.calls c ≠ .idle := by
  have hok := h.calls c
  unfold State.client at hs
  cases hc : e.calls c with
  | idle | ret n | retResult res => simp [hc] at hs
  | requestTestRunning creq =>
    rw [hc] at hok
    simp only [hc,Option.some.injEq] at hs
    subst hs
    refine ⟨.of_set rfl ?_ ?_,by simp⟩ <;> cases e.running <;> first | exact hok | simp [CallOk]
  | batchTestRunning reqs =>
    rw [hc] at hok
    simp only [hc,Option.some.injEq] at hs
    subst hs
    refine ⟨.of_set rfl ?_ ?_,by simp⟩ <;> cases e.running <;>
      first | exact pushOk_once hok | simp [CallOk]
  | warmUpTestRunning =>
    simp only [hc,Option.some.injEq] at hs
    subst hs
    refine ⟨.of_set rfl ?_ ?_,by simp⟩ <;> cases e.running <;>
      first | exact pushOk_warmUp | simp [CallOk]
  | testFlag creq =>
    rw [hc] at hok
    simp only [hc,Option.some.injEq] at hs
    subst hs
    refine ⟨.of_set rfl ?_ ?_,by simp⟩ <;> split <;>
      first | exact pushOk_once (List.forall_mem_singleton.mpr hok) | simp [CallOk]
  | enqueue p =>
    rw [hc] at hok
    simp only [hc] at hs
    split at hs
    · cases hs
      refine ⟨.of_set rfl .done ?_,by simp⟩
      cases hp : p.purpose <;> simp [Push.done,hp]
    · obtain ⟨q,-,rfl⟩ := Option.map_eq_some_iff.mp hs
      exact ⟨.of_set (p := .enqueuing p) rfl hok (by simp),by simp⟩
  | enqueuing p =>
    rw [hc] at hok
    simp only [hc] at hs
    split at hs
    · cases hs
    · split at hs
      · cases hs
        refine ⟨.of_set rfl ?_ ?_,by simp⟩ <;> split <;>
          first | exact hok | exact PushOk.after hok true | simp
      · cases hs
        exact ⟨.of_set rfl (PushOk.after hok false) (by simp),by simp⟩
      · obtain ⟨q,-,rfl⟩ := Option.map_eq_some_iff.mp hs
        exact ⟨.of_eq rfl (by rw [hc]; exact hok) (by simp [hc]),by simp⟩
  | count p =>
    rw [hc] at hok
    simp only [hc,Option.some.injEq] at hs
    subst hs
    exact ⟨.of_set rfl (PushOk.after hok true) (by simp),by simp⟩
  | resetBarrier tries =>
    simp only [hc,Option.some.injEq] at hs
    subst hs
    exact ⟨.of_set rfl (pushOk_barrier tries) (by simp),by simp⟩
  | enterDrain tries | awaitBarrier | awaitRunning =>
    simp only [hc,Option.some.injEq] at hs
    subst hs
    refine ⟨.of_set rfl ?_ ?_,by simp⟩ <;> split <;> simp [CallOk]
  | leaveDrain =>
    simp only [hc,Option.some.injEq] at hs
    subst hs
    exact ⟨.of_set rfl trivial (by simp),by simp⟩
  | polling =>
    simp only [hc] at hs
    split at hs
    · cases hs
      exact ⟨.of_set rfl trivial (by simp),by simp⟩
    · obtain ⟨q,-,rfl⟩ := Option.map_eq_some_iff.mp hs
      exact ⟨.of_eq rfl (by rw [hc]; trivial) (by simp [hc]),by simp⟩

theorem State.start_moves {f : Api} (hf : ∀ req ∈ f.requests, ok req.payload)
    (hs : e.start c f = some e') : Moves ok e e' c := by
  unfold State.start at hs
  split at hs
  · cases f with
    | enqueueRequest creq =>
      cases hs
      exact .of_set rfl (hf creq (by simp [Api.requests])) (by simp)
    | enqueueBatch reqs =>
      cases hs
      exact .of_set rfl hf (by simp)
    | pollResult =>
      obtain ⟨q,-,rfl⟩ := Option.map_eq_some_iff.mp hs
      exact .of_set (p := .polling) rfl trivial (by simp)
    | warmUpEngine | waitEngineDrained =>
      cases hs
      exact .of_set rfl trivial (by simp)
  · cases hs

theorem State.dispatch_calls {i : ShardId} {pop push : Int64} {spurious : Bool}
    (h : e.dispatch i pop push spurious = some e') : e'.calls = e.calls := by
  unfold State.dispatch at h
  dsimp only at h
  repeat' split at h
  all_goals first
    | (obtain ⟨q,-,rfl⟩ := Option.map_eq_some_iff.mp h; rfl)
    | (cases h <;> rfl)

theorem State.next_moves {a : Act κ} (h : Clients ok e) (ha : Admits ok e a)
    (hn : e.next a = some e') : e'.calls = e.calls ∨ ∃ c, Moves ok e e' c := by
  cases a with
  | start c f => exact .inr ⟨c,State.start_moves ha hn⟩
  | client c now spurious => exact .inr ⟨c,(State.client_moves h hn).1⟩
  | dispatch i pop push spurious => exact .inl (State.dispatch_calls hn)
  | work i inp =>
    obtain ⟨⟨sh,w⟩,-,rfl⟩ := Option.map_eq_some_iff.mp hn
    exact .inl rfl
  | stop => exact .inl (State.stopEngine_calls hn)

theorem ShardStep.carries {i : ShardId} {a : Act κ} {s' : Shard κ} (h : Clients ok e)
    (hs : ShardStep e i a s') :
    MpmcQueue.Carries (fun c req => Admitted ok i c req.payload) s'.queue := by
  have hq := h.queues i
  cases hs with
  | @enqueue c p req todo q _ _ hc ht hn =>
    refine hq.next ?_ hn
    rintro c' data ⟨⟩
    have hok := h.calls c
    rw [hc] at hok
    rw [Push.stamp_payload]
    exact hok (i,req) (by simp [ht])
  | attempt _ _ _ _ hn => exact hq.next (by rintro _ _ ⟨⟩) hn
  | call _ _ _ _ _ hn => exact hq.next (by rintro _ _ ⟨⟩) hn
  | dequeue _ _ _ _ hn => exact hq.next (by rintro _ _ ⟨⟩) hn
  | _ => exact hq

theorem ShardStep.client_pc {i : ShardId} {a : Act κ} {s' : Shard κ} {purpose : Purpose}
    (hs : ShardStep e i a s') (hc : ∀ p, e.calls c = .enqueue p ∨ e.calls c = .enqueuing p →
      p.purpose ≠ purpose) (k : Nat) :
    s'.queue.pc (.client purpose c k) = (e.shards i).queue.pc (.client purpose c k) := by
  have hne : ∀ {c' : κ} {p : Push}, e.calls c' = .enqueue p ∨ e.calls c' = .enqueuing p →
      Caller.client purpose c k ≠ p.caller c' := by
    intro c' p hp he
    simp only [Push.caller,Caller.client.injEq] at he
    obtain ⟨hpur,rfl,-⟩ := he
    exact hc p hp hpur.symm
  cases hs with
  | enqueue _ _ hc' ht hn =>
    obtain ⟨-,rfl⟩ := MpmcQueue.State.call_eq hn
    exact MpmcQueue.State.goto_pc_of_ne (hne (.inl hc'))
  | attempt _ _ hc' ht hn => exact MpmcQueue.State.step_pc_of_ne hn (hne (.inr hc'))
  | call _ _ _ _ _ hn =>
    obtain ⟨-,rfl⟩ := MpmcQueue.State.call_eq hn
    exact MpmcQueue.State.goto_pc_of_ne (by simp)
  | dequeue _ _ _ _ hn => exact MpmcQueue.State.step_pc_of_ne hn (by simp)
  | _ => rfl

theorem ShardStep.fresh {i : ShardId} {a : Act κ} {s' : Shard κ} (h : Clients ok e)
    (hs : ShardStep e i a s') (hc : e.calls c = .idle) (p : Purpose) (k : Nat) :
    s'.queue.pc (.client p c k) = .idle := by
  rw [hs.client_pc (by simp [hc])]
  exact h.fresh c hc i p k

theorem State.next_idle {a : Act κ} (h : Clients ok e) (ha : Admits ok e a)
    (hn : e.next a = some e') (hc : e'.calls c = .idle) : e.calls c = .idle := by
  rcases State.next_moves h ha hn with he | ⟨c₀,hother,-,hne⟩
  · rw [← he]; exact hc
  · rw [← hother c (by rintro rfl; exact hne hc)]; exact hc

theorem Clients.next {a : Act κ} (h : Clients ok e) (ha : Admits ok e a)
    (hn : e.next a = some e') : Clients ok e' := by
  have hmoves := State.next_moves h ha hn
  refine ⟨fun c => ?_,fun i => ?_,fun c hc i p k => ?_⟩
  · rcases hmoves with he | ⟨c₀,hother,hok,-⟩
    · rw [he]; exact h.calls c
    · by_cases hc : c = c₀
      · subst hc; exact hok
      · rw [hother c hc]; exact h.calls c
  · rcases State.next_shard hn i with hs | hs
    · rw [hs]; exact h.queues i
    · exact hs.carries h
  · have hidle := State.next_idle h ha hn hc
    rcases State.next_shard hn i with hs | hs
    · rw [hs]; exact h.fresh c hidle i p k
    · exact hs.fresh h hidle p k

/-- In a run whose clients bring what `ok` allows, the queues hold nothing else. -/
theorem run_clients {sold enq deq barrier : UInt64} {as : List (Act κ)}
    (hr : system.Run (initEngine sold enq deq barrier) as e)
    (ha : system.Along (Admits ok) (initEngine sold enq deq barrier) as) : Clients ok e :=
  hr.invariant_along (fun _ _ _ h ha hn => h.next ha hn) ha (initEngine_clients _ _ _ _)

theorem along_admits {as : List (Act κ)} (h : ∀ a ∈ as, ∀ req ∈ a.requests, ok req.payload) :
    system.Along (Admits ok) e as := System.along_of_forall fun a ha _ => h a ha

theorem reachable_clients (h : system.Reachable e) : Clients (fun _ => True) e := by
  obtain ⟨_,as,⟨sold,enq,deq,barrier,rfl⟩,hr⟩ := h
  exact run_clients hr (along_admits fun _ _ _ _ => trivial)

end Steps
end Flashsale.Engine
