import Flashsale.Engine
set_option autoImplicit false

namespace Flashsale.Engine

deriving instance DecidableEq for Push,Call

variable {κ : Type} [DecidableEq κ]

inductive ClientStep (e : State κ) (c : κ) (now : Int64) (spurious : Bool) : State κ → Prop where
  | requestTest {creq : Request} (pc : e.calls c = .requestTestRunning creq) :
      ClientStep e c now spurious (e.setCall c (if e.running then .testFlag creq else .ret 0))
  | batchTest {reqs : List Request} (pc : e.calls c = .batchTestRunning reqs) :
      ClientStep e c now spurious (e.setCall c
        (if e.running then .enqueue ⟨.once,reqs.map (·.routed),0,0⟩ else .ret 0))
  | warmUpTest (pc : e.calls c = .warmUpTestRunning) :
      ClientStep e c now spurious (e.setCall c
        (if e.running then .enqueue ⟨.warmUp,warmUpRequests,0,0⟩ else .ret 0))
  | soldOut {creq : Request} (pc : e.calls c = .testFlag creq)
      (flag : e.shared.soldOut creq.skuId = some true) :
      ClientStep e c now spurious (e.setCall c (.ret 2))
  | available {creq : Request} (pc : e.calls c = .testFlag creq)
      (flag : e.shared.soldOut creq.skuId ≠ some true) :
      ClientStep e c now spurious (e.setCall c (.enqueue ⟨.once,[creq.routed],0,0⟩))
  | finish {p : Push} (pc : e.calls c = .enqueue p) (todo : p.todo = []) :
      ClientStep e c now spurious (e.setCall c p.done)
  | attempt {p : Push} {i : ShardId} {req : Request} {rest : List (ShardId × Request)}
      {q : MpmcQueue.State Nat Request (Caller κ)} (pc : e.calls c = .enqueue p)
      (todo : p.todo = (i,req) :: rest)
      (next : (e.shards i).queue.next (.enqueue (p.caller c) (p.stamp req now)) = some q) :
      ClientStep e c now spurious
        ((e.setShard i { e.shards i with queue := q }).setCall c (.enqueuing p))
  | access {p : Push} {i : ShardId} {req : Request} {rest : List (ShardId × Request)}
      {q : MpmcQueue.State Nat Request (Caller κ)} (pc : e.calls c = .enqueuing p)
      (todo : p.todo = (i,req) :: rest)
      (next : (e.shards i).queue.next (.step (p.caller c) spurious) = some q) :
      ClientStep e c now spurious (e.setShard i { e.shards i with queue := q })
  | accepted {p : Push} {i : ShardId} {req data : Request} {rest : List (ShardId × Request)} {t : Nat}
      (pc : e.calls c = .enqueuing p) (todo : p.todo = (i,req) :: rest)
      (ret : (e.shards i).queue.pc (p.caller c) = .enqReturn data (some t)) :
      ClientStep e c now spurious
        (e.setCall c (if p.purpose = .once then .count p else .enqueue (p.after true)))
  | full {p : Push} {i : ShardId} {req data : Request} {rest : List (ShardId × Request)}
      (pc : e.calls c = .enqueuing p) (todo : p.todo = (i,req) :: rest)
      (ret : (e.shards i).queue.pc (p.caller c) = .enqReturn data none) :
      ClientStep e c now spurious (e.setCall c (.enqueue (p.after false)))
  | count {p : Push} (pc : e.calls c = .count p) :
      ClientStep e c now spurious
        ({ e with enqueueCount := e.enqueueCount + 1 }.setCall c (.enqueue (p.after true)))
  | reentered {tries : Nat} (pc : e.calls c = .enterDrain tries) (inside : e.inside = true) :
      ClientStep e c now spurious (e.setCall c (.ret 0))
  | enter {tries : Nat} (pc : e.calls c = .enterDrain tries) (inside : e.inside = false) :
      ClientStep e c now spurious ({ e with inside := true }.setCall c (.resetBarrier tries))
  | reset {tries : Nat} (pc : e.calls c = .resetBarrier tries) :
      ClientStep e c now spurious
        ({ e with shared := { e.shared with barrierReached := 0 } }.setCall c
          (.enqueue ⟨.barrier,barrierRequests,tries,0⟩))
  | reached (pc : e.calls c = .awaitBarrier) (acks : e.shared.barrierReached ≥ 2) :
      ClientStep e c now spurious (e.setCall c .leaveDrain)
  | waiting (pc : e.calls c = .awaitBarrier) (acks : ¬ e.shared.barrierReached ≥ 2) :
      ClientStep e c now spurious (e.setCall c .awaitRunning)
  | stillRunning (pc : e.calls c = .awaitRunning) (running : e.running = true) :
      ClientStep e c now spurious (e.setCall c .awaitBarrier)
  | stopped (pc : e.calls c = .awaitRunning) (running : e.running = false) :
      ClientStep e c now spurious (e.setCall c .leaveDrain)
  | leave (pc : e.calls c = .leaveDrain) :
      ClientStep e c now spurious ({ e with inside := false }.setCall c (.ret 0))
  | polled {won : Option (Nat × CSeckillResult)} (pc : e.calls c = .polling)
      (ret : e.shared.resultQueue.pc (.poller c) = .deqReturn won) :
      ClientStep e c now spurious (e.setCall c (.retResult (won.map (·.2))))
  | poll {q : MpmcQueue.State Nat CSeckillResult (ResultCaller κ)} (pc : e.calls c = .polling)
      (next : e.shared.resultQueue.next (.step (.poller c) spurious) = some q) :
      ClientStep e c now spurious { e with shared := { e.shared with resultQueue := q } }

theorem State.client_cases {e e' : State κ} {c : κ} {now : Int64} {spurious : Bool}
    (h : e.client c now spurious = some e') : ClientStep e c now spurious e' := by
  unfold State.client at h
  cases hc : e.calls c with
  | idle | ret n | retResult res => simp [hc] at h
  | requestTestRunning creq =>
    simp only [hc,Option.some.injEq] at h
    subst h
    exact .requestTest hc
  | batchTestRunning reqs =>
    simp only [hc,Option.some.injEq] at h
    subst h
    exact .batchTest hc
  | warmUpTestRunning =>
    simp only [hc,Option.some.injEq] at h
    subst h
    exact .warmUpTest hc
  | testFlag creq =>
    simp only [hc,Option.some.injEq] at h
    subst h
    split
    · exact .soldOut hc ‹_›
    · exact .available hc ‹_›
  | enqueue p =>
    simp only [hc] at h
    split at h
    · cases h
      exact .finish hc ‹_›
    · rename_i ht
      obtain ⟨q,hq,rfl⟩ := Option.map_eq_some_iff.mp h
      exact .attempt hc ht hq
  | enqueuing p =>
    simp only [hc] at h
    split at h
    · cases h
    · rename_i ht
      split at h
      · rename_i hret
        cases h
        exact .accepted hc ht hret
      · rename_i hret
        cases h
        exact .full hc ht hret
      · obtain ⟨q,hq,rfl⟩ := Option.map_eq_some_iff.mp h
        exact .access hc ht hq
  | count p =>
    simp only [hc,Option.some.injEq] at h
    subst h
    exact .count hc
  | enterDrain tries =>
    simp only [hc,Option.some.injEq] at h
    subst h
    cases hin : e.inside with
    | true =>
      have hsame : { e with inside := true } = e := by rw [← hin]
      simp only [if_true,hsame]
      exact .reentered hc hin
    | false => exact .enter hc hin
  | resetBarrier tries =>
    simp only [hc,Option.some.injEq] at h
    subst h
    exact .reset hc
  | awaitBarrier =>
    simp only [hc,Option.some.injEq] at h
    subst h
    split
    · exact .reached hc ‹_›
    · exact .waiting hc ‹_›
  | awaitRunning =>
    simp only [hc,Option.some.injEq] at h
    subst h
    cases hr : e.running with
    | true => exact .stillRunning hc hr
    | false => exact .stopped hc hr
  | leaveDrain =>
    simp only [hc,Option.some.injEq] at h
    subst h
    exact .leave hc
  | polling =>
    simp only [hc] at h
    split at h
    · rename_i hret
      cases h
      exact .polled hc hret
    · obtain ⟨q,hq,rfl⟩ := Option.map_eq_some_iff.mp h
      exact .poll hc hq

end Flashsale.Engine
