import Flashsale.CoreEngineClients
set_option autoImplicit false

namespace Flashsale.CoreEngine
open Transition
open Engine (barrierId)
variable {κ : Type}

def State.pending (e : State κ) (i : WorkerId) : List Request :=
  (routed i e.accepted).drop (e.workers i).processed.length

/-- How many barriers the workers have still to acknowledge. -/
def State.acksDue (e : State κ) : Nat := ∑ i, (e.pending i).countP (·.requestId = barrierId)

def Ordinary (req : Request) : Prop := req.requestId ≠ barrierId

instance Ordinary.decide (req : Request) : Decidable (Ordinary req) :=
  inferInstanceAs (Decidable (req.requestId ≠ barrierId))

section Pending
variable {e e' : State κ}

theorem Sends.processed_pending (h : Sends e) (hi : Ingress e) (hr : e.running = true) (i : WorkerId) :
    (e.workers i).processed ++ e.pending i = routed i e.accepted := by
  obtain ⟨rest,hrest⟩ := h.processed_prefix hi (h.kept hr) i
  rw [State.pending,← hrest,List.drop_left]

theorem countP_routed_barrier {req : Request} (hb : req.requestId = barrierId) (i : WorkerId) :
    (routed i [req]).countP (·.requestId = barrierId) = 1 := by
  simp [routed_single,Request.targets,hb,
    List.count_eq_one_of_mem (List.nodup_finRange _) (List.mem_finRange i)]

theorem countP_routed_ordinary {req : Request} (ho : Ordinary req) (i : WorkerId) :
    (routed i [req]).countP (·.requestId = barrierId) = 0 := by
  simp [routed_single,List.countP_replicate,show req.requestId ≠ barrierId from ho]

theorem pending_accept {req : Request} (h : Sends e) (hi : Ingress e) (hr : e.running = true)
    (hacc : e'.accepted = e.accepted ++ [req])
    (hp : ∀ i, (e'.workers i).processed = (e.workers i).processed) (i : WorkerId) :
    e'.pending i = e.pending i ++ routed i [req] := by
  have hle : (e.workers i).processed.length ≤ (routed i e.accepted).length :=
    (h.processed_prefix hi (h.kept hr) i).length_le
  rw [State.pending,State.pending,hacc,hp,routed_append,List.drop_append_of_le_length hle]

theorem acksDue_congr (hacc : e'.accepted = e.accepted)
    (hp : ∀ i, (e'.workers i).processed = (e.workers i).processed) : e'.acksDue = e.acksDue := by
  simp only [State.acksDue,State.pending,hacc,hp]

theorem acksDue_accept {req : Request} (h : Sends e) (hi : Ingress e) (hr : e.running = true)
    (hacc : e'.accepted = e.accepted ++ [req])
    (hp : ∀ i, (e'.workers i).processed = (e.workers i).processed) :
    e'.acksDue = e.acksDue + if req.requestId = barrierId then kWorkerCount else 0 := by
  simp only [State.acksDue,pending_accept h hi hr hacc hp,List.countP_append,Finset.sum_add_distrib]
  split
  · rename_i hb
    simp [countP_routed_barrier hb]
  · rename_i hb
    simp [countP_routed_ordinary hb]

theorem pending_process {req : Request} {i : WorkerId} (h : Sends e) (hi : Ingress e) (h' : Sends e')
    (hi' : Ingress e') (hr : e.running = true) (hr' : e'.running = true)
    (hacc : e'.accepted = e.accepted)
    (hp : (e'.workers i).processed = (e.workers i).processed ++ [req]) :
    e.pending i = req :: e'.pending i := by
  have heq := h'.processed_pending hi' hr' i
  rw [hp,hacc,← h.processed_pending hi hr i,List.append_assoc] at heq
  exact (List.append_cancel_left heq).symm

theorem pending_handle {req : Request} {i : WorkerId} (h : Sends e)
    (hr : e.running = true) (hpre : e.handled ++ [req] <+: e.accepted) (ht : i ∈ req.targets) :
    req ∈ e.pending i := by
  have hproc : (e.workers i).processed <+: routed i e.handled := by
    rw [← h.sent_eq (h.kept hr),← h.pipeline_eq,State.pipeline]
    simp only [List.append_assoc]
    exact List.prefix_append _ _
  obtain ⟨more,hmore⟩ := hpre
  obtain ⟨rest,hrest⟩ := hproc
  rw [State.pending,← hmore,routed_append,routed_append,← hrest,List.append_assoc,List.append_assoc,
    List.drop_left]
  exact List.mem_append_right _ (List.mem_append_left _ (mem_routed.mpr ⟨by simp,ht⟩))

theorem State.setQueue_processed {q : SpscQueue.State Request} (i j : WorkerId) :
    ((e.setQueue i q).workers j).processed = (e.workers j).processed := by
  by_cases hj : j = i
  · subst hj
    simp [State.setQueue]
  · simp [State.setQueue,hj]

end Pending

section Steps
variable [DecidableEq κ] {e e' : State κ}

/-- What a step of the dispatcher or of a worker does to the acknowledgements that have
come and that are due. -/
inductive AckStep (e e' : State κ) : Prop where
  | quiet (due : e'.acksDue = e.acksDue) (acks : e'.shared.barrierReached = e.shared.barrierReached)
  | ack (due : e.acksDue = e'.acksDue + 1)
      (acks : e'.shared.barrierReached = e.shared.barrierReached + 1)
  | handle (due : e'.acksDue = e.acksDue) (all : kWorkerCount ≤ e.acksDue)
      (acks : e'.shared.barrierReached = 0)

theorem State.work_acks {i : WorkerId} {wr : WalWrite} {b : Bool} (h : Sends e) (hi : Ingress e)
    (hr : e.running = true) (hn : e.next (.work i wr b) = some e') : AckStep e e' := by
  have h' := h.next hn
  have hi' := hi.next hn
  obtain ⟨⟨sh,w⟩,hw,rfl⟩ := Option.map_eq_some_iff.mp hn
  have hquiet : w.processed = (e.workers i).processed → sh.barrierReached = e.shared.barrierReached →
      AckStep e { e with shared := sh, workers := Function.update e.workers i w } := by
    intro hp hsh
    refine .quiet (acksDue_congr rfl fun j => ?_) hsh
    by_cases hj : j = i
    · subst hj
      simp [hp]
    · simp [hj]
  cases Worker.step_cases hw with
  | @process req items count _ _ pc step =>
    have hdue : e.acksDue =
        State.acksDue { e with shared := sh, workers := Function.update e.workers i w } +
          if req.requestId = barrierId then 1 else 0 := by
      refine sum_add_of_ne (i := i) (fun j hj => ?_) ?_
      · simp [State.pending,State.accepted,hj]
      · rw [pending_process h hi h' hi' hr hr rfl (by simpa using step.frame.2.2.1),List.countP_cons]
        simp
    cases step with
    | barrier id =>
      rw [if_pos id] at hdue
      exact .ack hdue rfl
    | duplicate id _ | decided id _ =>
      rw [if_neg id] at hdue
      exact .quiet hdue.symm rfl
  | @flag req res items count wr pc =>
    obtain ⟨wal,hwal⟩ := (e.workers i).journal_eq req res wr
    obtain ⟨soldOut,hsold⟩ := e.shared.storeFlag_eq (e.workers i) req.skuId
    exact hquiet (by rw [hwal]) (by rw [hsold])
  | _ => exact hquiet rfl rfl

theorem State.dispatch_acks {b : Bool} (h : Sends e) (hi : Ingress e) (hr : e.running = true)
    (hn : e.next (.dispatch b) = some e') : AckStep e e' := by
  have hcalls := State.next_calls hi hn
  cases State.dispatch_cases hn with
  | ask k i targets req items q pc next | push k i targets req items q pc next =>
    exact .quiet (acksDue_congr rfl (State.setQueue_processed i)) rfl
  | barrier k req items pc id =>
    refine .handle (acksDue_congr rfl fun _ => rfl) ?_ rfl
    have hpre : e.handled ++ [req] <+: e.accepted :=
      List.IsPrefix.trans (by simp [pc,Dispatcher.batch]) hi.isPrefix
    have hone : ∀ i, 1 ≤ (e.pending i).countP (·.requestId = barrierId) := fun i =>
      List.countP_pos_iff.mpr
        ⟨req,pending_handle h hr hpre (by simp [Request.targets,id]),by simpa using id⟩
    calc kWorkerCount = ∑ _i : WorkerId, 1 := by simp
      _ ≤ e.acksDue := Finset.sum_le_sum fun i _ => hone i
  | access k batch b' q pc next =>
    have htickets : q.tickets = e.queue.tickets := by
      cases hcalls with
      | other _ _ _ _ tickets => exact tickets
    exact .quiet (acksDue_congr (congrArg (List.map _) htickets) fun _ => rfl) rfl
  | call k batch q pc next =>
    obtain ⟨-,rfl⟩ := MpmcQueue.State.call_eq next
    exact .quiet (acksDue_congr rfl fun _ => rfl) rfl
  | _ => exact .quiet (acksDue_congr rfl fun _ => rfl) rfl

theorem State.next_acks {a : Act κ} (h : Sends e) (hi : Ingress e) (hr : e.running = true)
    (ha : ∀ c b, a ≠ .client c b) (hn : e.next a = some e') : AckStep e e' := by
  cases a with
  | work i wr b => exact State.work_acks h hi hr hn
  | dispatch b => exact State.dispatch_acks h hi hr hn
  | client c b => exact absurd rfl (ha c b)
  | start c f =>
    have hn' : e.start c f = some e' := hn
    simp only [State.start] at hn'
    split at hn'
    · cases f with
      | pollResult =>
        obtain ⟨q,-,rfl⟩ := Option.map_eq_some_iff.mp hn'
        exact .quiet (acksDue_congr rfl fun _ => rfl) rfl
      | _ =>
        cases hn'
        exact .quiet (acksDue_congr rfl fun _ => rfl) rfl
    · cases hn'
  | stop =>
    cases State.stop_cases hn with
    | stopWorker i pc =>
      refine .quiet (acksDue_congr rfl fun j => ?_) rfl
      by_cases hj : j = i
      · subst hj
        simp
      · simp [hj]
    | _ => exact .quiet (acksDue_congr rfl fun _ => rfl) rfl

end Steps

def Call.draining : Call → Bool
  | .resetBarrier | .signal _ | .signalling _ | .awaitBarrier | .awaitRunning | .leaveDrain => true
  | _ => false

def State.acks (e : State κ) : Nat := e.shared.barrierReached.toNat + e.acksDue

/-- Where call `c` stands, and what it has to expect. -/
def State.Phase (e : State κ) (c : κ) : Prop :=
  match e.calls c with
  | .resetBarrier | .leaveDrain => e.acksDue = 0
  | .signal _ => e.acks = 0
  | .signalling k => e.acks = if (e.queue.pc (.client c k)).enqueued.isSome then kWorkerCount else 0
  | .awaitBarrier | .awaitRunning => e.acks = kWorkerCount
  | _ => False

/-- At most one call is past the guard, and the barriers are its own. -/
inductive Draining (e : State κ) : Prop where
  | nobody (calls : ∀ c, (e.calls c).draining = false) (due : e.acksDue = 0)
  | one (c : κ) (only : ∀ d, (e.calls d).draining = true → d = c) (inside : e.inside = true)
      (phase : e.Phase c)

section Phase
variable {e e' : State κ} {c : κ}

theorem State.Phase.draining (h : e.Phase c) : (e.calls c).draining = true := by
  unfold State.Phase at h
  cases hc : e.calls c <;> simp_all [Call.draining]

theorem State.Phase.busy (h : e.Phase c) : e.calls c ≠ .idle := fun hidle => by
  have hdrain := h.draining
  rw [hidle] at hdrain
  cases hdrain

theorem State.Phase.bound (h : e.Phase c) : e.acksDue = 0 ∨ e.acks ≤ kWorkerCount := by
  unfold State.Phase at h
  cases hc : e.calls c with
  | resetBarrier | leaveDrain => exact .inl (by simpa [hc] using h)
  | signalling k =>
    refine .inr ?_
    simp only [hc] at h
    rw [h]
    split <;> simp
  | signal k =>
    simp only [hc] at h
    exact .inr (by omega)
  | awaitBarrier | awaitRunning =>
    simp only [hc] at h
    exact .inr (by omega)
  | _ => simp [hc] at h

theorem State.Phase.congr (h : e.Phase c) (hcalls : e'.calls c = e.calls c)
    (hpcs : ∀ k, e'.queue.pc (.client c k) = e.queue.pc (.client c k)) (hacks : e'.acks = e.acks)
    (hdue : e.acksDue = 0 → e'.acksDue = 0) : e'.Phase c := by
  unfold State.Phase at h ⊢
  rw [hcalls]
  simp only [hpcs,hacks]
  cases hc : e.calls c with
  | resetBarrier | leaveDrain =>
    simp only [hc] at h
    exact hdue h
  | signal k | signalling k | awaitBarrier | awaitRunning => simpa only [hc] using h
  | _ => simp [hc] at h

/-- The dispatcher and the workers only turn acknowledgements due into ones that have come. -/
theorem AckStep.acks_eq (h : AckStep e e')
    (hle : e.acksDue = 0 ∨ e.acks ≤ kWorkerCount) :
    e'.acks = e.acks ∧ (e.acksDue = 0 → e'.acksDue = 0) := by
  unfold State.acks at hle ⊢
  cases h with
  | quiet due acks => simp [due,acks]
  | ack due acks =>
    have hlt : e.shared.barrierReached.toNat + 1 < 2^64 := by
      simp only [kWorkerCount] at hle
      omega
    have hone : (e.shared.barrierReached + 1).toNat = e.shared.barrierReached.toNat + 1 := by
      rw [UInt64.toNat_add]
      exact Nat.mod_eq_of_lt hlt
    rw [acks,hone]
    omega
  | handle due all acks =>
    have hzero : e'.shared.barrierReached.toNat = 0 := by rw [acks]; rfl
    simp only [kWorkerCount] at all hle
    omega

end Phase

section Guard
variable [DecidableEq κ] {e e' : State κ} {c : κ}

theorem State.next_inside {a : Act κ} (hn : e.next a = some e') (ha : ∀ c b, a ≠ .client c b) :
    e'.inside = e.inside := by
  cases a with
  | client c b => exact absurd rfl (ha c b)
  | dispatch b => cases State.dispatch_cases hn <;> rfl
  | work i wr b =>
    obtain ⟨⟨sh,w⟩,-,rfl⟩ := Option.map_eq_some_iff.mp hn
    rfl
  | stop => cases State.stop_cases hn <;> rfl
  | start c f =>
    have hn' : e.start c f = some e' := hn
    simp only [State.start] at hn'
    split at hn'
    · cases f with
      | pollResult =>
        obtain ⟨q,-,rfl⟩ := Option.map_eq_some_iff.mp hn'
        rfl
      | _ =>
        cases hn'
        rfl
    · cases hn'

theorem ClientStep.outside (h : ClientStep e c e') (hd : (e.calls c).draining = false) :
    ((e'.calls c).draining = false ∧ e'.inside = e.inside) ∨
      e.inside = false ∧ e'.inside = true ∧ e'.calls c = .resetBarrier := by
  cases h with
  | requestTest creq pc => exact .inl ⟨by cases e.running <;> simp [State.setCall,Call.draining],rfl⟩
  | batchTest reqs pc => exact .inl ⟨by cases e.running <;> simp [State.setCall,Call.draining],rfl⟩
  | testFlag creq pc =>
    refine .inl ⟨?_,rfl⟩
    rw [State.setCall_calls_self]
    split <;> rfl
  | enter pc inside => exact .inr ⟨inside,rfl,State.setCall_calls_self _ _ _⟩
  | access k b q pc next => exact .inl ⟨hd,rfl⟩
  | poll b q pc next => exact .inl ⟨hd,rfl⟩
  | finish n pc | attempt req todo n pc | accepted todo n t data pc | full todo n data pc
  | reentered pc
  | checkOff enabled pc off | checkOn enabled pc on
  | resetExpectedSeq pc | resetGapCount pc | resetDupCount pc | resetLastSeqSeen pc
  | loadLastSeqSeen pc | loadGapCount lastSeq pc | loadDupCount lastSeq gap pc | polled won pc =>
    exact .inl ⟨by rw [State.setCall_calls_self]; rfl,rfl⟩
  | reset pc | signal k pc | signalled k t data pc | unsignalled k data pc | reached pc | waiting pc
  | stillRunning pc | stopped pc | leave pc =>
    simp [pc,Call.draining] at hd

theorem State.start_draining {c' : κ} {f : Api} (hn : e.start c' f = some e') :
    (e'.calls c).draining = (e.calls c).draining := by
  simp only [State.start] at hn
  split at hn
  · rename_i hidle
    have hset : ∀ {p : Call}, p.draining = false →
        (Function.update e.calls c' p c).draining = (e.calls c).draining := by
      intro p hp
      by_cases hc : c = c'
      · subst hc
        rw [Function.update_self,hp,hidle]
        rfl
      · simp [hc]
    cases f with
    | pollResult =>
      obtain ⟨q,-,rfl⟩ := Option.map_eq_some_iff.mp hn
      exact hset rfl
    | _ =>
      cases hn
      exact hset rfl
  · cases hn

theorem State.next_draining {a : Act κ} (hi : Ingress e) (hn : e.next a = some e')
    (ha : ∀ b, a ≠ .client c b) : (e'.calls c).draining = (e.calls c).draining := by
  cases State.next_calls hi hn with
  | other _ _ calls => rw [calls]
  | start c' f => exact State.start_draining hn
  | move c' b p _ _ _ calls | attempt c' b p _ _ _ _ _ calls =>
    have hne : c' ≠ c := by
      rintro rfl
      exact ha b rfl
    rw [calls,State.setCall_calls_of_ne (Ne.symm hne)]
  | access c' b spurious n r attempt next rest => rw [rest]

theorem ClientStep.outside_acks (h : Sends e) (hi : Ingress e) (hc : Clients Ordinary e)
    (hr : e.running = true) (hs : ClientStep e c e') (hd : (e.calls c).draining = false) :
    e'.acksDue = e.acksDue ∧ e'.shared.barrierReached = e.shared.barrierReached := by
  cases hs with
  | access k b q pc next =>
    obtain ⟨todo,pc⟩ | pc := pc
    · refine ⟨?_,rfl⟩
      cases (MpmcQueue.State.step_effect next).2.2 with
      | quiet tickets | took _ _ _ tickets =>
        exact acksDue_congr (congrArg (List.map _) tickets) fun _ => rfl
      | won req item tickets =>
        have hacc : State.accepted { e with queue := q } = e.accepted ++ [req] := by
          simp [State.accepted,tickets]
        have hord : Ordinary req := by
          rw [hc.present c k _ (by rw [pc]; rfl)] at item
          exact hc.requests c req (by simpa [Call.requests,pc] using List.mem_of_mem_head? item)
        rw [acksDue_accept h hi hr hacc fun _ => rfl,if_neg hord,Nat.add_zero]
    · simp [pc,Call.draining] at hd
  | reset pc => simp [pc,Call.draining] at hd
  | _ => exact ⟨acksDue_congr rfl fun _ => rfl,rfl⟩

theorem State.Phase.client (h : e.Phase c) (hsend : Sends e) (hi : Ingress e) (hi' : Ingress e')
    (hc : Clients Ordinary e) (hr : e.running = true) (hs : ClientStep e c e') :
    (e'.Phase c ∧ e'.inside = e.inside) ∨ (e'.calls c).draining = false ∧ e'.acksDue = 0 := by
  unfold State.Phase at h ⊢
  have hset : ∀ p, (e.setCall c p).acks = e.acks ∧ (e.setCall c p).acksDue = e.acksDue :=
    fun _ => ⟨rfl,rfl⟩
  cases hs with
  | reset pc =>
    simp only [pc] at h
    rw [State.setCall_calls_self]
    refine .inl ⟨?_,rfl⟩
    exact (Nat.zero_add _).trans h
  | signal k pc idle =>
    simp only [pc] at h
    rw [State.setCall_calls_self]
    refine .inl ⟨?_,rfl⟩
    dsimp only
    rw [if_neg (by simp [State.setCall,MpmcQueue.Pc.enqueued])]
    exact h
  | access k b q pc next =>
    obtain ⟨todo,pc⟩ | pc := pc
    · simp [pc] at h
    · simp only [pc,← hi.inv.mem_tickets_iff] at h
      refine .inl ⟨?_,rfl⟩
      simp only [pc,← hi'.inv.mem_tickets_iff]
      cases (MpmcQueue.State.step_effect next).2.2 with
      | quiet tickets | took _ _ _ tickets =>
        have hdue : State.acksDue { e with queue := q } = e.acksDue :=
          acksDue_congr (congrArg (List.map _) tickets) fun _ => rfl
        simpa only [State.acks,hdue,tickets] using h
      | won req item tickets =>
        rw [hc.present c k _ (by rw [pc]; rfl)] at item
        cases item
        have hacc : State.accepted { e with queue := q } = e.accepted ++ [barrierRequest] := by
          simp [State.accepted,tickets]
        have hdue : State.acksDue { e with queue := q } = e.acksDue + kWorkerCount :=
          acksDue_accept hsend hi hr hacc fun _ => rfl
        rw [if_neg (hi'.inv.fresh_of_won tickets),State.acks] at h
        rw [if_pos (by simp [tickets]),State.acks,hdue]
        dsimp only
        omega
  | signalled k t data pc ret =>
    simp only [pc,ret] at h
    rw [State.setCall_calls_self]
    exact .inl ⟨by simpa [MpmcQueue.Pc.enqueued,hset] using h,rfl⟩
  | unsignalled k data pc ret =>
    simp only [pc,ret] at h
    rw [State.setCall_calls_self]
    exact .inl ⟨by simpa [MpmcQueue.Pc.enqueued,hset] using h,rfl⟩
  | reached pc acks =>
    simp only [pc] at h
    rw [State.setCall_calls_self]
    refine .inl ⟨?_,rfl⟩
    have hdue : e.acksDue = 0 := by
      simp only [State.acks] at h
      omega
    exact hdue
  | waiting pc =>
    simp only [pc] at h
    rw [State.setCall_calls_self]
    exact .inl ⟨h,rfl⟩
  | stillRunning pc running =>
    simp only [pc] at h
    rw [State.setCall_calls_self]
    exact .inl ⟨h,rfl⟩
  | stopped pc running => rw [hr] at running; cases running
  | leave pc =>
    simp only [pc] at h
    rw [State.setCall_calls_self]
    exact .inr ⟨rfl,h⟩
  | requestTest creq pc | batchTest reqs pc | testFlag creq pc | finish n pc | attempt req todo n pc
  | accepted todo n t data pc | full todo n data pc | reentered pc | enter pc
  | checkOff enabled pc off | checkOn enabled pc on
  | resetExpectedSeq pc | resetGapCount pc | resetDupCount pc | resetLastSeqSeen pc
  | loadLastSeqSeen pc | loadGapCount lastSeq pc | loadDupCount lastSeq gap pc
  | polled won pc | poll b q pc =>
    simp [pc] at h

theorem Draining.next {a : Act κ} (h : Draining e) (hsend : Sends e) (hi : Ingress e)
    (hc : Clients Ordinary e) (hr : e.running = true) (hn : e.next a = some e') : Draining e' := by
  have hcalls := State.next_calls hi hn
  by_cases ha : ∃ c b, a = .client c b
  · obtain ⟨d,b,rfl⟩ := ha
    have hs := State.client_cases hn
    have hother : ∀ d', d' ≠ d → (e'.calls d').draining = (e.calls d').draining := fun d' hne =>
      State.next_draining hi hn (by rintro b' ⟨⟩; exact hne rfl)
    by_cases hd : (e.calls d).draining = true
    · cases h with
      | nobody calls => rw [calls d] at hd; cases hd
      | one c only inside phase =>
        obtain rfl := only d hd
        rcases phase.client hsend hi (hi.next hn) hc hr hs with ⟨hphase,hin⟩ | ⟨hout,hdue⟩
        · refine .one d (fun d' hd' => ?_) (hin ▸ inside) hphase
          by_contra hne
          rw [hother d' hne] at hd'
          exact hne (only d' hd')
        · refine .nobody (fun d' => ?_) hdue
          by_cases hne : d' = d
          · rw [hne]
            exact hout
          · rw [hother d' hne,Bool.eq_false_iff]
            exact fun hd' => hne (only d' hd')
    · rw [Bool.not_eq_true] at hd
      obtain ⟨hdue,hacks⟩ := hs.outside_acks hsend hi hc hr hd
      rcases hs.outside hd with ⟨hout,hin⟩ | ⟨hin,hin',hreset⟩
      · have hsame : ∀ d', (e'.calls d').draining = (e.calls d').draining := fun d' => by
          by_cases hne : d' = d
          · rw [hne,hout,hd]
          · exact hother d' hne
        cases h with
        | nobody calls due => exact .nobody (fun d' => (hsame d').trans (calls d')) (hdue.trans due)
        | one c only inside phase =>
          have hne : d ≠ c := by
            rintro rfl
            rw [phase.draining] at hd
            cases hd
          obtain ⟨hcall,hpcs,-⟩ := hcalls.frame hc phase.busy (by simp [hne])
          exact .one c (fun d' hd' => only d' ((hsame d').symm.trans hd')) (hin.trans inside)
            (phase.congr hcall hpcs (by rw [State.acks,State.acks,hdue,hacks]) hdue.trans)
      · cases h with
        | nobody calls due =>
          refine .one d (fun d' hd' => ?_) hin' ?_
          · by_contra hne
            rw [hother d' hne,calls d'] at hd'
            cases hd'
          · rw [State.Phase,hreset]
            exact hdue.trans due
        | one c only inside phase => rw [hin] at inside; cases inside
  · have ha' : ∀ c b, a ≠ .client c b := fun c b hb => ha ⟨c,b,hb⟩
    have hsame : ∀ d, (e'.calls d).draining = (e.calls d).draining := fun d =>
      State.next_draining hi hn (ha' d)
    have hacks := State.next_acks hsend hi hr ha' hn
    cases h with
    | nobody calls due =>
      exact .nobody (fun d => (hsame d).trans (calls d)) ((hacks.acks_eq (.inl due)).2 due)
    | one c only inside phase =>
      obtain ⟨hsum,hzero⟩ := hacks.acks_eq phase.bound
      obtain ⟨hcall,hpcs,-⟩ := hcalls.frame hc phase.busy (ha' c)
      exact .one c (fun d hd => only d ((hsame d).symm.trans hd))
        ((State.next_inside hn ha').trans inside) (phase.congr hcall hpcs hsum hzero)

omit [DecidableEq κ] in
theorem initEngine_draining (checkCorrectness : Bool) (barrierReached : UInt64) :
    Draining (initEngine checkCorrectness barrierReached : State κ) :=
  .nobody (fun _ => rfl) rfl

end Guard

end Flashsale.CoreEngine
