import Flashsale.CoreEngineBarrier
import Mathlib
set_option autoImplicit false

namespace Flashsale.CoreEngine
open Transition
open Engine (barrierId)
variable {κ : Type}

section Drained
variable {e e' : State κ} {before : List Request} {c : κ}

def State.Signalled (e : State κ) (before : List Request) : Prop :=
  ∃ rs, before ++ rs ++ [barrierRequest] <+: e.accepted

/-- A barrier was accepted behind `before`, and each worker has processed all of its
requests up to it. -/
def State.Drained (e : State κ) (before : List Request) : Prop :=
  ∃ rs, before ++ rs ++ [barrierRequest] <+: e.accepted ∧
    ∀ i, routed i (before ++ rs ++ [barrierRequest]) <+: (e.workers i).processed

/-- What is known at each point of a call of `WaitEngineDrained` that has passed the guard. -/
def State.Tracks (e : State κ) (before : List Request) (c : κ) : Prop :=
  match e.calls c with
  | .resetBarrier | .signal _ => True
  | .signalling k => (e.queue.pc (.client c k)).enqueued.isSome → e.Signalled before
  | .awaitBarrier | .awaitRunning => e.Signalled before
  | .leaveDrain | .ret _ => e.Drained before
  | _ => False

theorem State.Signalled.mono (h : e.Signalled before) (hacc : e.accepted <+: e'.accepted) :
    e'.Signalled before := by
  obtain ⟨rs,hrs⟩ := h
  exact ⟨rs,hrs.trans hacc⟩

theorem State.Drained.mono (h : e.Drained before) (hacc : e.accepted <+: e'.accepted)
    (hproc : ∀ i, (e.workers i).processed <+: (e'.workers i).processed) : e'.Drained before := by
  obtain ⟨rs,hrs,hall⟩ := h
  exact ⟨rs,hrs.trans hacc,fun i => (hall i).trans (hproc i)⟩

theorem State.Signalled.drained (h : e.Signalled before) (hs : Sends e) (hi : Ingress e)
    (hr : e.running = true) (hdue : e.acksDue = 0) : e.Drained before := by
  obtain ⟨rs,hrs⟩ := h
  refine ⟨rs,hrs,fun i => ?_⟩
  have hpre : routed i (before ++ rs ++ [barrierRequest]) <+: routed i e.accepted := hrs.filter _
  have hproc := hs.processed_prefix hi (hs.kept hr) i
  refine List.prefix_of_prefix_length_le hpre hproc ?_
  by_contra hlt
  have hbarrier : routed i [barrierRequest] = [barrierRequest] := by
    simp [routed,barrierRequest,Request.targets]
  obtain ⟨more,hmore⟩ := hpre
  rw [routed_append,hbarrier] at hlt hmore
  have hle : (e.workers i).processed.length ≤ (routed i (before ++ rs)).length := by
    simpa using hlt
  have hmem : barrierRequest ∈ e.pending i := by
    rw [State.pending,← hmore,List.append_assoc,List.drop_append_of_le_length hle]
    simp
  have hzero : (e.pending i).countP (·.requestId = barrierId) = 0 :=
    (Finset.sum_eq_zero_iff.mp hdue) i (Finset.mem_univ i)
  exact List.countP_eq_zero.mp hzero _ hmem (decide_eq_true rfl)

variable [DecidableEq κ]

theorem State.next_processed {a : Act κ} (hn : e.next a = some e') (i : WorkerId) :
    (e.workers i).processed <+: (e'.workers i).processed := by
  cases a with
  | start c f =>
    simp only [State.next,State.start] at hn
    split at hn
    · cases f with
      | pollResult =>
        obtain ⟨q,-,rfl⟩ := Option.map_eq_some_iff.mp hn
        exact List.prefix_refl _
      | _ => cases hn; exact List.prefix_refl _
    · cases hn
  | client c b => cases State.client_cases hn <;> exact List.prefix_refl _
  | dispatch b =>
    cases State.dispatch_cases hn with
    | ask | push =>
      simp only [State.setQueue_processed]
      exact List.prefix_refl _
    | _ => exact List.prefix_refl _
  | work j wr b =>
    obtain ⟨⟨sh,w⟩,hw,rfl⟩ := Option.map_eq_some_iff.mp hn
    by_cases hj : i = j
    · subst hj
      simp only [Function.update_self]
      cases Worker.step_cases hw with
      | process pc step =>
        rw [step.frame.2.2.1]
        exact List.prefix_append _ _
      | @flag req res items count wr pc =>
        obtain ⟨wal,hwal⟩ := (e.workers i).journal_eq req res wr
        rw [hwal]
      | _ => exact List.prefix_refl _
    · simp [hj]
  | stop =>
    cases State.stop_cases hn with
    | stopWorker j pc =>
      by_cases hj : i = j
      · subst hj
        simp
      · simp [hj]
    | _ => exact List.prefix_refl _

theorem State.Tracks.client (h : e.Tracks before c) (hpre : before <+: e.accepted) (hd : Draining e)
    (hsend : Sends e) (hi : Ingress e) (hi' : Ingress e') (hc : Clients Ordinary e)
    (hr : e.running = true) (hs : ClientStep e c e') : e'.Tracks before c := by
  unfold State.Tracks at h ⊢
  cases hs with
  | reset pc =>
    rw [State.setCall_calls_self]
    trivial
  | signal k pc idle =>
    rw [State.setCall_calls_self]
    simp [State.setCall,MpmcQueue.Pc.enqueued]
  | access k b q pc next =>
    obtain ⟨todo,pc⟩ | pc := pc
    · simp [pc] at h
    · simp only [pc,← hi.inv.mem_tickets_iff] at h
      simp only [pc,← hi'.inv.mem_tickets_iff]
      cases (MpmcQueue.State.step_effect next).2.2 with
      | quiet tickets | took _ _ _ tickets =>
        simpa only [State.Signalled,State.accepted,tickets] using h
      | won req item tickets =>
        rw [hc.present c k _ (by rw [pc]; rfl)] at item
        cases item
        obtain ⟨rs,hrs⟩ := hpre
        refine fun _ => ⟨rs,?_⟩
        rw [hrs]
        simp [State.accepted,tickets]
  | signalled k t data pc ret =>
    simp only [pc,ret] at h
    rw [State.setCall_calls_self]
    exact h rfl
  | unsignalled k data pc ret =>
    rw [State.setCall_calls_self]
    trivial
  | reached pc acks =>
    simp only [pc] at h
    rw [State.setCall_calls_self]
    have hdue : e.acksDue = 0 := by
      cases hd with
      | nobody calls => simpa [pc,Call.draining] using calls c
      | one c' only inside phase =>
        obtain rfl : c = c' := only c (by rw [pc]; rfl)
        simp only [State.Phase,pc,State.acks] at phase
        omega
    exact h.drained hsend hi hr hdue
  | waiting pc =>
    simp only [pc] at h
    rw [State.setCall_calls_self]
    exact h
  | stillRunning pc running =>
    simp only [pc] at h
    rw [State.setCall_calls_self]
    exact h
  | stopped pc running => rw [hr] at running; cases running
  | leave pc =>
    simp only [pc] at h
    rw [State.setCall_calls_self]
    exact h
  | requestTest creq pc | batchTest reqs pc | testFlag creq pc | finish n pc | attempt req todo n pc
  | accepted todo n t data pc | full todo n data pc | reentered pc | enter pc
  | checkOff enabled pc off | checkOn enabled pc on
  | resetExpectedSeq pc | resetGapCount pc | resetDupCount pc | resetLastSeqSeen pc
  | loadLastSeqSeen pc | loadGapCount lastSeq pc | loadDupCount lastSeq gap pc
  | polled won pc | poll b q pc =>
    simp [pc] at h

theorem State.Tracks.next {a : Act κ} (h : e.Tracks before c) (hpre : before <+: e.accepted)
    (hd : Draining e) (hsend : Sends e) (hi : Ingress e) (hc : Clients Ordinary e)
    (hr : e.running = true) (hn : e.next a = some e') : e'.Tracks before c := by
  by_cases hclient : ∃ b, a = .client c b
  · obtain ⟨b,rfl⟩ := hclient
    exact h.client hpre hd hsend hi (hi.next hn) hc hr (State.client_cases hn)
  · have hbusy : e.calls c ≠ .idle := fun hidle => by simp [State.Tracks,hidle] at h
    obtain ⟨hcalls,hpcs,-⟩ := (State.next_calls hi hn).frame hc hbusy fun b hb => hclient ⟨b,hb⟩
    have hacc : e.accepted <+: e'.accepted := (State.next_tickets hn).map _
    have hproc := State.next_processed hn
    unfold State.Tracks at h ⊢
    rw [hcalls]
    simp only [hpcs]
    cases hcall : e.calls c with
    | resetBarrier | signal k => trivial
    | signalling k =>
      simp only [hcall] at h
      exact fun hwon => (h hwon).mono hacc
    | awaitBarrier | awaitRunning =>
      simp only [hcall] at h
      exact h.mono hacc
    | leaveDrain | ret n =>
      simp only [hcall] at h
      exact h.mono hacc hproc
    | _ => simp [hcall] at h

def Session (ok : Request → Prop) (e : State κ) : Prop :=
  ∃ checkCorrectness barrierReached as,
    system.Run (initEngine checkCorrectness barrierReached) as e ∧
      system.Along (Admits ok) (initEngine checkCorrectness barrierReached) as

theorem Session.reachable {ok : Request → Prop} (h : Session ok e) : system.Reachable e := by
  obtain ⟨checkCorrectness,barrierReached,as,hr,-⟩ := h
  exact ⟨_,as,initEngine_init checkCorrectness barrierReached,hr⟩

theorem Session.run {ok : Request → Prop} {as : List (Act κ)} (h : Session ok e)
    (hr : system.Run e as e') (ha : system.Along (Admits ok) e as) : Session ok e' := by
  obtain ⟨checkCorrectness,barrierReached,bs,hrun,halong⟩ := h
  exact ⟨checkCorrectness,barrierReached,bs ++ as,hrun.append hr,halong.append hrun ha⟩

theorem Session.step {ok : Request → Prop} {a : Act κ} (h : Session ok e) (ha : Admits ok e a)
    (hn : system.next e a = some e') : Session ok e' := h.run (.single hn) ⟨ha,fun _ _ => trivial⟩

theorem Session.clients {ok : Request → Prop} (h : Session ok e) : Clients ok e := by
  obtain ⟨_,_,as,hr,ha⟩ := h
  exact run_clients hr ha

theorem Session.invariant {ok : Request → Prop} {I : State κ → Prop} (h : Session ok e)
    (hinit : ∀ checkCorrectness barrierReached, I (initEngine checkCorrectness barrierReached))
    (hnext : ∀ s a t, Session ok s → Session ok t → s.next a = some t → I s → I t) : I e := by
  obtain ⟨checkCorrectness,barrierReached,as,hrun,ha⟩ := h
  have hinv := hrun.invariant_along (I := fun e => Session ok e ∧ I e)
    (fun s a t hs hp hn =>
      have ht := hs.1.step hp hn
      ⟨ht,hnext s a t hs.1 ht hn hs.2⟩)
    ha ⟨⟨checkCorrectness,barrierReached,[],.nil _,trivial⟩,hinit checkCorrectness barrierReached⟩
  exact hinv.2

theorem Session.draining (h : Session Ordinary e) (hr : e.running = true) : Draining e := by
  refine h.invariant (I := fun e => e.running = true → Draining e) (fun _ _ _ => initEngine_draining _ _)
    (fun s a t hs _ hn hd ht => ?_) hr
  obtain ⟨hi,hsend⟩ := reachable_flow hs.reachable
  have hr := State.next_running hn ht
  exact (hd hr).next hsend hi hs.clients hr hn

theorem Session.tracks {s : State κ} {as : List (Act κ)} {b : Bool} (h : Session Ordinary s)
    (hcall : s.calls c = .enterDrain) (hin : s.inside = false)
    (hrun : system.Run s (.client c b :: as) e)
    (ha : system.Along (Admits Ordinary) s (.client c b :: as)) (hr : e.running = true) :
    e.Tracks s.accepted c := by
  cases hrun with
  | @cons _ t _ _ _ hn hrun =>
    have ht : t = { s with inside := true }.setCall c .resetBarrier := by
      have hs : s.client c b = some t := hn
      simpa [State.client,hcall,hin,eq_comm] using hs
    have hstart : t.Tracks s.accepted c := by
      rw [ht,State.Tracks,State.setCall_calls_self]
      trivial
    have hinv := hrun.invariant_along
      (I := fun e => (Session Ordinary e ∧ s.accepted <+: e.accepted) ∧
        (e.running = true → e.Tracks s.accepted c))
      (fun u a v hu hp hv => by
        obtain ⟨⟨hses,hpre⟩,htracks⟩ := hu
        obtain ⟨hi,hsend⟩ := reachable_flow hses.reachable
        refine ⟨⟨hses.step hp hv,hpre.trans ((State.next_tickets hv).map _)⟩,fun hr => ?_⟩
        have hru := State.next_running hv hr
        exact (htracks hru).next hpre (hses.draining hru) hsend hi hses.clients hru hv)
      (ha.2 t hn) ⟨⟨h.step ha.1 hn,by rw [ht]; exact List.prefix_refl _⟩,fun _ => hstart⟩
    exact hinv.2 hr

/-- A call of `WaitEngineDrained` that is let in and returns while the engine runs has
drained it: each worker has processed all of its requests that had been accepted when
the call came in, and then the call's barrier. -/
theorem drain_complete {s : State κ} {as : List (Act κ)} {b : Bool} {n : Nat} (h : Session Ordinary s)
    (hcall : s.calls c = .enterDrain) (hin : s.inside = false)
    (hrun : system.Run s (.client c b :: as) e)
    (ha : system.Along (Admits Ordinary) s (.client c b :: as)) (hr : e.running = true)
    (hret : e.calls c = .ret n) : e.Drained s.accepted := by
  have htracks := h.tracks hcall hin hrun ha hr
  simpa only [State.Tracks,hret] using htracks

def drainBefore : List (Act Bool) :=
  .start true (.enqueueBatch threeRequests) :: List.replicate 23 (.client true false) ++
    [.start false .waitEngineDrained]

def drainRest : List (Act Bool) :=
  List.replicate 10 (Act.client false false) ++ List.replicate 104 (Act.dispatch false) ++
    List.replicate 20 (Act.work 0 wholeWrite false) ++ List.replicate 20 (Act.work 1 wholeWrite false) ++
    List.replicate 20 (Act.work 2 wholeWrite false) ++ List.replicate 60 (Act.work 3 wholeWrite false) ++
    List.replicate 2 (Act.client false false)

def drainStart : State Bool :=
  (system.exec (initEngine true 0) drainBefore).get (by decide +kernel)

def drainEnd : State Bool :=
  (system.exec drainStart (.client false false :: drainRest)).get (by decide +kernel)

theorem drainStart_session : Session Ordinary drainStart :=
  have hord : ∀ a ∈ drainBefore, ∀ req ∈ a.requests, Ordinary req := by
    decide +kernel
  ⟨true,0,drainBefore,System.run_of_exec (Option.some_get _).symm,
    System.along_of_forall fun a ha _ => hord a ha⟩

theorem drain_complete_three : drainEnd.Drained threeRequests :=
  have hord : ∀ a ∈ Act.client false false :: drainRest, ∀ req ∈ a.requests, Ordinary req := by
    decide +kernel
  have hacc : drainStart.accepted = threeRequests := by decide +kernel
  hacc ▸ drain_complete drainStart_session (by decide +kernel) (by decide +kernel)
    (System.run_of_exec (Option.some_get _).symm) (System.along_of_forall fun a ha _ => hord a ha)
    (by decide +kernel) (by decide +kernel : drainEnd.calls false = .ret 0)

end Drained
end Flashsale.CoreEngine
