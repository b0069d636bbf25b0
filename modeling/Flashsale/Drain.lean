import Flashsale.Barrier
import Flashsale.Reported
import Mathlib
set_option autoImplicit false

namespace Flashsale.Engine
open Transition
variable {κ : Type}

def Call.Collecting : Call → Prop
  | .enqueue p | .enqueuing p => p.purpose = .barrier
  | .awaitBarrier | .awaitRunning => True
  | _ => False

theorem Call.Collecting.draining {p : Call} (h : p.Collecting) : p.Draining := by
  cases p <;> simp_all [Call.Collecting,Call.Draining]

theorem barriers_congr {e e' : State κ} (h : ∀ i, (e'.shards i).pending = (e.shards i).pending) :
    e'.barriers = e.barriers := by simp only [State.barriers,h]

theorem ProcessStep.barrierReached {w w' : Worker} {sh sh' : Shared κ} {req : Request}
    {items : List Request} {count : Nat} {uninit : CSeckillResult}
    (h : ProcessStep w sh req items count uninit sh' w') :
    sh'.barrierReached =
      if isBarrier req.payload then sh.barrierReached + 1 else sh.barrierReached := by
  have hid : isBarrier req.payload = decide (req.requestId = barrierId) := rfl
  rw [hid]
  cases h with
  | warmUp id => simp [id,barrierId]
  | barrier id => simp [id]
  | benchmark id limit => simp [id]
  | duplicate id limit seen | decided id limit fresh =>
    have hb : req.requestId ≠ barrierId := by
      intro hb
      rw [hb] at limit
      exact absurd limit (by decide)
    simp [hb]

theorem Admission.isBarrier_iff {ok : Payload → Prop} (hok : ∀ r, ok r → r.2.2.2 ≠ barrierId)
    {i : ShardId} {purpose : Purpose} {r : Payload} (h : Admission ok i purpose r) :
    isBarrier r ↔ purpose = .barrier := by
  cases purpose with
  | once => simpa [isBarrier] using hok r h.2
  | warmUp =>
    have hr : r.2.2.2 = 0 := h
    simp [isBarrier,hr,barrierId]
  | barrier =>
    have hr : r.2.2.2 = barrierId := h
    simp [isBarrier,hr]

variable [DecidableEq κ]

/-- The shards whose barrier the call's loop has still to get accepted. -/
def State.owed (e : State κ) (c : κ) : List ShardId :=
  match e.calls c with
  | .enqueue p => p.todo.map Prod.fst
  | .enqueuing p =>
      match p.todo with
      | [] => []
      | (i,_) :: rest =>
          if p.caller c ∈ (e.shards i).queue.tickets.map Prod.fst then rest.map Prod.fst
          else i :: rest.map Prod.fst
  | _ => []

structure Acks (e : State κ) : Prop where
  collecting : ∀ c, (e.calls c).Collecting →
    e.shared.barrierReached.toNat + e.barriers + (e.owed c).length = kWorkerCount
  quiet : (∀ c, ¬ (e.calls c).Collecting) → e.barriers = 0

/-- Where a drain owes a shard no barrier, the shard has one of this drain. -/
def Marked (e : State κ) : Prop :=
  ∀ c, (e.calls c).Collecting ∨ e.calls c = .leaveDrain → ∀ i, i ∉ e.owed c →
    ∃ k data, (.client .barrier c k,data) ∈ (e.shards i).queue.tickets

section Steps
variable {e e' : State κ} {a : Act κ} {c : κ} {ok : Payload → Prop}

inductive DrainStep (e e' : State κ) : Prop where
  | still (barriers : e'.barriers = e.barriers)
      (reached : e'.shared.barrierReached = e.shared.barrierReached)
      (collecting : ∀ c, (e'.calls c).Collecting ↔ (e.calls c).Collecting)
      (leaving : ∀ c, e'.calls c = .leaveDrain → e.calls c = .leaveDrain)
      (owed : ∀ c, (e.calls c).Collecting → e'.owed c = e.owed c)
  | inject {c : κ} {i : ShardId} {k : Nat} {data : Request} (calls : e'.calls = e.calls)
      (collecting : (e.calls c).Collecting) (barriers : e'.barriers = e.barriers + 1)
      (reached : e'.shared.barrierReached = e.shared.barrierReached)
      (owed : e.owed c = i :: e'.owed c)
      (ticket : (.client .barrier c k,data) ∈ (e'.shards i).queue.tickets)
  | acknowledge (calls : e'.calls = e.calls) (barriers : e.barriers = e'.barriers + 1)
      (reached : e'.shared.barrierReached = e.shared.barrierReached + 1)
      (owed : ∀ c, e'.owed c = e.owed c)
  | reset {c : κ} {tries : Nat} (pc : e.calls c = .resetBarrier tries)
      (calls : e'.calls = Function.update e.calls c (.enqueue ⟨.barrier,barrierRequests,tries,0⟩))
      (barriers : e'.barriers = e.barriers) (reached : e'.shared.barrierReached = 0)
      (owed : ∀ c', c' ≠ c → e'.owed c' = e.owed c')
  | close {c : κ} (pc : e.calls c = .awaitBarrier ∨ e.calls c = .awaitRunning)
      (calls : e'.calls = Function.update e.calls c .leaveDrain)
      (finished : e.shared.barrierReached ≥ 2 ∨ e.running = false)
      (barriers : e'.barriers = e.barriers)
      (owed : ∀ c', c' ≠ c → e'.owed c' = e.owed c')

theorem owed_congr (hc : e'.calls c = e.calls c)
    (ht : ∀ i (p : Push), p.caller c ∈ (e'.shards i).queue.tickets.map Prod.fst ↔
      p.caller c ∈ (e.shards i).queue.tickets.map Prod.fst) : e'.owed c = e.owed c := by
  simp only [State.owed,hc]
  split
  · rfl
  · rename_i p _
    split
    · rfl
    · simp only [ht]
  · rfl

theorem DrainStep.of_move {p : Call} (calls : e'.calls = Function.update e.calls c p)
    (shards : ∀ i, (e'.shards i).queue.tickets = (e.shards i).queue.tickets ∧
      (e'.shards i).worker.processed = (e.shards i).worker.processed)
    (reached : e'.shared.barrierReached = e.shared.barrierReached)
    (collecting : p.Collecting ↔ (e.calls c).Collecting) (leaving : p ≠ .leaveDrain)
    (owed : p.Collecting → e'.owed c = e.owed c) : DrainStep e e' := by
  refine .still (barriers_congr fun i => Shard.pending_congr (shards i).1 (shards i).2) reached
    (fun c' => ?_) (fun c' hc => ?_) (fun c' hc => ?_)
  · by_cases heq : c' = c
    · subst heq
      simpa [calls] using collecting
    · simp [calls,heq]
  · by_cases heq : c' = c
    · subst heq
      exact absurd (by simpa [calls] using hc) leaving
    · simpa [calls,heq] using hc
  · by_cases heq : c' = c
    · subst heq
      exact owed (collecting.mpr hc)
    · exact owed_congr (by simp [calls,heq]) fun i p => by rw [(shards i).1]

theorem DrainStep.of_quiet (calls : e'.calls = e.calls)
    (shards : ∀ i, (e'.shards i).queue.tickets = (e.shards i).queue.tickets ∧
      (e'.shards i).worker.processed = (e.shards i).worker.processed)
    (reached : e'.shared.barrierReached = e.shared.barrierReached) : DrainStep e e' :=
  .still (barriers_congr fun i => Shard.pending_congr (shards i).1 (shards i).2) reached
    (fun c => by rw [calls]) (fun c hc => by rw [← calls]; exact hc)
    (fun c _ => owed_congr (by rw [calls]) fun i p => by rw [(shards i).1])

theorem DrainStep.of_access {p : Push} {i : ShardId} {req : Request}
    {rest : List (ShardId × Request)} {q : MpmcQueue.State Nat Request (Caller κ)}
    {spurious : Bool} (hok : ∀ r, ok r → r.2.2.2 ≠ barrierId) (hc : Clients ok e)
    (hf : ∀ i, Fifo (e.shards i)) (pc : e.calls c = .enqueuing p) (todo : p.todo = (i,req) :: rest)
    (next : (e.shards i).queue.next (.step (p.caller c) spurious) = some q) :
    DrainStep e (e.setShard i { e.shards i with queue := q }) := by
  have hother : ∀ j, j ≠ i → (e.setShard i { e.shards i with queue := q }).shards j = e.shards j :=
    fun j hj => State.setShard_shards_of_ne hj
  have hself := e.setShard_shards_self i { e.shards i with queue := q }
  have hquiet : q.tickets = (e.shards i).queue.tickets →
      DrainStep e (e.setShard i { e.shards i with queue := q }) := by
    intro ht
    refine .of_quiet rfl (fun j => ?_) rfl
    by_cases hj : j = i
    · subst hj
      rw [hself]
      exact ⟨ht,rfl⟩
    · rw [hother j hj]
      exact ⟨rfl,rfl⟩
  cases (MpmcQueue.State.step_effect next).2.2 with
  | quiet ht _ _ => exact hquiet ht
  | took _ _ _ ht _ => exact hquiet ht
  | won data hi ht _ =>
    have hf' : MpmcQueue.Inv (1024*4) q := (hf i).ingress.next trivial next
    have hpending : Shard.pending { e.shards i with queue := q } =
        (e.shards i).pending ++ [data.payload] := (hf i).pending_accept ht rfl
    have hadm : Admission ok i p.purpose data.payload := hc.queues i _ data hi
    have hbarrier := hadm.isBarrier_iff hok
    have hfresh := hf'.fresh_of_won ht
    have howed : ∀ c', c' ≠ c →
        (e.setShard i { e.shards i with queue := q }).owed c' = e.owed c' := by
      intro c' hne
      refine owed_congr rfl fun j p' => ?_
      by_cases hj : j = i
      · subst hj
        rw [hself]
        simp only [ht,List.map_append,List.mem_append,List.map_cons,List.map_nil,
          List.mem_singleton,or_iff_left_iff_imp]
        intro he
        simp only [Push.caller,Caller.client.injEq] at he
        exact absurd he.2.1 hne
      · rw [hother j hj]
    have hsum : (e.setShard i { e.shards i with queue := q }).barriers =
        e.barriers + if isBarrier data.payload then 1 else 0 := by
      refine sum_add_of_ne (i := i) (fun j hj => by rw [hother j hj]) ?_
      rw [hself,hpending]
      by_cases hb : isBarrier data.payload <;> simp [hb]
    by_cases hp : p.purpose = .barrier
    · rw [if_pos (hbarrier.mpr hp)] at hsum
      have hticket : (.client .barrier c p.tries,data) ∈
          ((e.setShard i { e.shards i with queue := q }).shards i).queue.tickets := by
        simp [ht,Push.caller,hp]
      refine .inject rfl (by rw [pc]; exact hp) hsum rfl ?_ hticket
      have hnow : p.caller c ∈
          ((e.setShard i { e.shards i with queue := q }).shards i).queue.tickets.map Prod.fst := by
        simp [ht]
      have hcalls : (e.setShard i { e.shards i with queue := q }).calls c = .enqueuing p := pc
      simp only [State.owed,pc,hcalls,todo,if_neg hfresh,if_pos hnow]
    · rw [if_neg (fun hb => hp (hbarrier.mp hb))] at hsum
      refine .still hsum rfl (fun _ => Iff.rfl) (fun _ => id) (fun c' hcol => ?_)
      refine howed c' ?_
      rintro rfl
      rw [pc] at hcol
      exact hp hcol

theorem ClientStep.drain {now : Int64} {spurious : Bool} (hok : ∀ r, ok r → r.2.2.2 ≠ barrierId)
    (hc : Clients ok e) (hg : Guarded e) (hf : ∀ i, Fifo (e.shards i))
    (h : ClientStep e c now spurious e') : DrainStep e e' := by
  have hmove : ∀ {x : State κ} {p : Call}, x.calls = e.calls → x.shards = e.shards →
      x.shared.barrierReached = e.shared.barrierReached → (p.Collecting ↔ (e.calls c).Collecting) →
      p ≠ .leaveDrain → (p.Collecting → (x.setCall c p).owed c = e.owed c) →
      DrainStep e (x.setCall c p) := by
    intro x p hx hs hr hcol hl how
    exact .of_move (by rw [State.setCall,hx]) (fun i => by simp [State.setCall,hs]) hr hcol hl how
  cases h with
  | access pc todo next => exact .of_access hok hc hf pc todo next
  | poll pc next => exact .of_quiet rfl (fun _ => ⟨rfl,rfl⟩) rfl
  | reset pc =>
    refine .reset pc rfl rfl rfl fun c' hne => owed_congr (State.setCall_calls_of_ne hne) ?_
    exact fun _ _ => Iff.rfl
  | reached pc acks =>
    refine .close (.inl pc) rfl (.inl acks) rfl fun c' hne =>
      owed_congr (State.setCall_calls_of_ne hne) ?_
    exact fun _ _ => Iff.rfl
  | stopped pc running =>
    refine .close (.inr pc) rfl (.inr running) rfl fun c' hne =>
      owed_congr (State.setCall_calls_of_ne hne) ?_
    exact fun _ _ => Iff.rfl
  | @attempt p i req rest q pc todo next =>
    obtain ⟨hidle,rfl⟩ := MpmcQueue.State.call_eq next
    have hout : p.caller c ∉ (e.shards i).queue.tickets.map Prod.fst := by
      rw [(hf i).ingress.mem_tickets_iff,hidle]
      simp [MpmcQueue.Pc.enqueued]
    refine .of_move rfl (fun j => ?_) rfl (by rw [pc]; exact Iff.rfl) (by simp) fun _ => ?_
    · by_cases hj : j = i
      · subst hj
        simp [State.setCall,MpmcQueue.State.goto]
      · simp [State.setCall,State.setShard,hj]
    · simp only [State.owed,State.setCall_calls_self,pc,todo]
      rw [if_neg (by simpa [State.setCall,MpmcQueue.State.goto] using hout)]
      rfl
  | @accepted p i req data rest t pc todo ret =>
    have hin : p.caller c ∈ (e.shards i).queue.tickets.map Prod.fst := by
      rw [(hf i).ingress.mem_tickets_iff,ret]
      rfl
    refine hmove rfl rfl rfl ?_ ?_ fun hcol => ?_
    · cases hp : p.purpose <;> simp [pc,hp,Push.after,Call.Collecting]
    · cases hp : p.purpose <;> simp
    · have hp : p.purpose ≠ .once := by
        intro hp
        simp [hp,Call.Collecting] at hcol
      simp [pc,todo,hp,hin,Push.after,State.owed,State.setCall]
  | @full p i req data rest pc todo ret =>
    have hout : p.caller c ∉ (e.shards i).queue.tickets.map Prod.fst := by
      rw [(hf i).ingress.mem_tickets_iff,ret]
      simp [MpmcQueue.Pc.enqueued]
    refine hmove rfl rfl rfl ?_ ?_ fun hcol => ?_
    · simp [pc,Push.after,Call.Collecting]
    · simp
    · have hp : p.purpose = .barrier := hcol
      simp [pc,todo,hp,hout,Push.after,State.owed,State.setCall]
  | @finish p pc todo =>
    refine hmove rfl rfl rfl ?_ ?_ ?_ <;>
      cases hp : p.purpose <;> simp [Push.done,hp,pc,Call.Collecting,State.owed,todo,State.setCall]
  | requestTest pc | batchTest pc | warmUpTest pc =>
    refine hmove rfl rfl rfl ?_ ?_ ?_ <;> cases e.running <;> simp [pc,Call.Collecting]
  | @count p pc =>
    have hp := hg.counted c p pc
    refine hmove rfl rfl rfl ?_ ?_ ?_ <;> simp [pc,Push.after,hp,Call.Collecting]
  | soldOut pc _ | available pc _ | reentered pc _ | enter pc _ | waiting pc _ | stillRunning pc _
  | leave pc | polled pc _ =>
    refine hmove rfl rfl rfl ?_ ?_ ?_ <;> simp [pc,Call.Collecting,State.owed,State.setCall]

theorem WorkStep.barrierReached {w w' : Worker} {sh sh' : Shared κ} {i : ShardId}
    {inp : WorkerInput} (h : WorkStep w sh i inp sh' w') :
    (w'.processed = w.processed ∧ sh'.barrierReached = sh.barrierReached) ∨
      ∃ req items count, ProcessStep w sh req items count inp.uninit sh' w' := by
  cases h with
  | process pc step => exact .inr ⟨_,_,_,step⟩
  | @flag req res items count pc =>
    obtain ⟨wal,hwal⟩ := w.journal_eq req res inp.systemNow
    obtain ⟨soldOut,hflag⟩ := sh.storeFlag_eq w req.skuId
    rw [hwal,hflag]
    exact .inl ⟨rfl,rfl⟩
  | _ => exact .inl ⟨rfl,rfl⟩

theorem DrainStep.of_work {i : ShardId} {inp : WorkerInput} (hf : ∀ i, Fifo (e.shards i))
    (hf' : ∀ i, Fifo (e'.shards i)) (hn : e.work i inp = some e') : DrainStep e e' := by
  obtain ⟨⟨sh,w⟩,hw,rfl⟩ := Option.map_eq_some_iff.mp hn
  have hother : ∀ j, j ≠ i →
      ({ e with shared := sh }.setShard i { e.shards i with worker := w }).shards j = e.shards j :=
    fun j hj => State.setShard_shards_of_ne hj
  have hself := { e with shared := sh }.setShard_shards_self i { e.shards i with worker := w }
  have howed : ∀ c, ({ e with shared := sh }.setShard i { e.shards i with worker := w }).owed c =
      e.owed c := by
    refine fun c => owed_congr rfl fun j p => ?_
    by_cases hj : j = i
    · subst hj
      rw [hself]
    · rw [hother j hj]
  have hkeep : w.processed = (e.shards i).worker.processed →
      sh.barrierReached = e.shared.barrierReached →
      DrainStep e ({ e with shared := sh }.setShard i { e.shards i with worker := w }) := by
    intro hp hr
    refine .of_quiet rfl (fun j => ?_) hr
    by_cases hj : j = i
    · subst hj
      rw [hself]
      exact ⟨rfl,hp⟩
    · rw [hother j hj]
      exact ⟨rfl,rfl⟩
  rcases (Worker.step_cases hw).barrierReached with ⟨hp,hr⟩ | ⟨req,items,count,hstep⟩
  · exact hkeep hp hr
  · have hreached := hstep.barrierReached
    have hfi := hf' i
    rw [hself] at hfi
    have hpending := Fifo.pending_process (hf i) hfi rfl hstep.ledger.1
    have hsum : e.barriers = ({ e with shared := sh }.setShard i
        { e.shards i with worker := w }).barriers + if isBarrier req.payload then 1 else 0 := by
      refine sum_add_of_ne (i := i) (fun j hj => by rw [hother j hj]) ?_
      rw [hself,hpending]
      by_cases hb : isBarrier req.payload <;> simp [hb]
    by_cases hb : isBarrier req.payload
    · rw [if_pos hb] at hsum hreached
      exact .acknowledge rfl hsum hreached howed
    · rw [if_neg hb] at hsum hreached
      exact .still hsum.symm hreached (fun _ => Iff.rfl) (fun _ => id) (fun c _ => howed c)

theorem State.next_drain (hok : ∀ r, ok r → r.2.2.2 ≠ barrierId) (hc : Clients ok e)
    (hg : Guarded e) (hf : ∀ i, Fifo (e.shards i)) (hf' : ∀ i, Fifo (e'.shards i))
    (hn : e.next a = some e') : DrainStep e e' := by
  have hflow := State.next_flow hf hn
  cases a with
  | client c now spurious => exact (State.client_cases hn).drain hok hc hg hf
  | work i inp => exact .of_work hf hf' hn
  | start c f =>
    have hshards := State.start_shards hn
    simp only [State.next,State.start] at hn
    split at hn
    · rename_i hidle
      cases f with
      | pollResult =>
        obtain ⟨q,-,rfl⟩ := Option.map_eq_some_iff.mp hn
        refine .of_move (p := .polling) rfl (fun _ => ⟨rfl,rfl⟩) rfl ?_ ?_ ?_ <;>
          simp [hidle,Call.Collecting]
      | _ =>
        cases hn
        refine .of_move rfl (fun _ => ⟨rfl,rfl⟩) rfl ?_ ?_ ?_ <;> simp [hidle,Call.Collecting]
    · cases hn
  | dispatch i pop push spurious =>
    refine .of_quiet (State.dispatch_calls hn) (fun j => ?_) ?_
    · cases hflow j with
      | quiet ht hp => exact ⟨ht,hp⟩
    · simp only [State.next,State.dispatch] at hn
      repeat' split at hn
      all_goals first
        | (obtain ⟨q,-,rfl⟩ := Option.map_eq_some_iff.mp hn; rfl)
        | (cases hn; rfl)
        | cases hn
  | stop =>
    refine .of_quiet (State.stopEngine_calls hn) (fun j => ?_) (by rw [State.stopEngine_shared hn])
    cases hflow j with
    | quiet ht hp => exact ⟨ht,hp⟩

theorem State.next_running (hn : e.next a = some e') (hr : e'.running = true) :
    e.running = true := by
  by_cases ha : a = .stop
  · subst ha
    simp only [State.next,State.stopEngine] at hn
    repeat' split at hn
    all_goals cases hn
    all_goals first
      | exact hr
      | cases hr
  · cases a with
    | stop => exact absurd rfl ha
    | work i inp =>
      obtain ⟨⟨sh,w⟩,-,rfl⟩ := Option.map_eq_some_iff.mp hn
      exact hr
    | _ =>
      simp only [State.next,State.start,State.client,State.dispatch] at hn
      repeat' split at hn
      all_goals first
        | (obtain ⟨q,-,rfl⟩ := Option.map_eq_some_iff.mp hn; exact hr)
        | (cases hn <;> exact hr)

theorem Call.collecting_update {p : Call} {c' : κ} (hp : ¬ p.Collecting)
    (h : (Function.update e.calls c p c').Collecting) : c' ≠ c ∧ (e.calls c').Collecting := by
  by_cases heq : c' = c
  · subst heq
    exact absurd (by simpa using h) hp
  · exact ⟨heq,by simpa [heq] using h⟩

theorem Acks.next (h : Acks e) (hg : Guarded e) (hr : e.running = true) (hs : DrainStep e e') :
    Acks e' := by
  have hunique : ∀ {c c'}, (e.calls c).Collecting → (e.calls c').Collecting → c' = c :=
    fun hc hc' => hg.unique _ _ hc'.draining hc.draining
  cases hs with
  | still barriers reached collecting leaving owed =>
    refine ⟨fun c hc => ?_,fun hnone => ?_⟩
    · have hc' := (collecting c).mp hc
      rw [barriers,reached,owed c hc']
      exact h.collecting c hc'
    · rw [barriers]
      exact h.quiet fun c hc => hnone c ((collecting c).mpr hc)
  | @inject c i k data calls collecting barriers reached owed ticket =>
    have hsum := h.collecting c collecting
    rw [owed,List.length_cons] at hsum
    refine ⟨fun c' hc => ?_,fun hnone => ?_⟩
    · rw [calls] at hc
      obtain rfl := hunique collecting hc
      rw [barriers,reached]
      omega
    · rw [calls] at hnone
      exact absurd collecting (hnone c)
  | acknowledge calls barriers reached owed =>
    refine ⟨fun c hc => ?_,fun hnone => ?_⟩
    · rw [calls] at hc
      have hsum := h.collecting c hc
      have hlt : e.shared.barrierReached.toNat < 2 := by
        simp only [kWorkerCount] at hsum
        omega
      have hnat : (e.shared.barrierReached + 1).toNat = e.shared.barrierReached.toNat + 1 := by
        rw [UInt64.toNat_add]
        exact Nat.mod_eq_of_lt (by simp; omega)
      rw [owed,reached,hnat]
      omega
    · rw [calls] at hnone
      have := h.quiet hnone
      omega
  | @reset c tries pc calls barriers reached owed =>
    have hnone : ∀ c', ¬ (e.calls c').Collecting := by
      intro c' hc'
      obtain rfl : c' = c := hg.unique _ _ hc'.draining (by simp [pc,Call.Draining])
      simp [pc,Call.Collecting] at hc'
    have hzero := h.quiet hnone
    have hself : (e'.calls c).Collecting := by simp [calls,Call.Collecting]
    refine ⟨fun c' hc => ?_,fun hn => absurd hself (hn c)⟩
    obtain rfl : c' = c := by
      by_contra hne
      rw [calls,Function.update_of_ne hne] at hc
      exact hnone c' hc
    rw [barriers,hzero,reached]
    simp [State.owed,calls,barrierRequests]
  | @close c pc calls finished barriers owed =>
    have hself : (e.calls c).Collecting := by rcases pc with pc | pc <;> simp [pc,Call.Collecting]
    have hsum := h.collecting c hself
    have hreached : 2 ≤ e.shared.barrierReached.toNat := by
      rcases finished with hge | hfalse
      · exact UInt64.le_iff_toNat_le.mp hge
      · rw [hr] at hfalse
        cases hfalse
    refine ⟨fun c' hc => ?_,fun _ => ?_⟩
    · rw [calls] at hc
      obtain ⟨hne,hc'⟩ := Call.collecting_update (by simp [Call.Collecting]) hc
      exact absurd (hunique hself hc') hne
    · rw [barriers]
      simp only [kWorkerCount] at hsum
      omega

theorem Marked.next (h : Marked e) (ht : ∀ i, (e.shards i).queue.tickets <+: (e'.shards i).queue.tickets)
    (hg : Guarded e) (hs : DrainStep e e') : Marked e' := by
  have hkeep : ∀ {c}, (e.calls c).Collecting ∨ e.calls c = .leaveDrain → ∀ i, i ∉ e.owed c →
      ∃ k data, (.client .barrier c k,data) ∈ (e'.shards i).queue.tickets := by
    intro c hc i hi
    obtain ⟨k,data,hm⟩ := h c hc i hi
    exact ⟨k,data,(ht i).mem hm⟩
  intro c' hc' j hj
  cases hs with
  | still barriers reached collecting leaving owed =>
    rcases hc' with hcol | hleave
    · have hcol' := (collecting c').mp hcol
      rw [owed c' hcol'] at hj
      exact hkeep (.inl hcol') j hj
    · exact hkeep (.inr (leaving c' hleave)) j (by simp [State.owed,leaving c' hleave])
  | @inject c i k data calls collecting barriers reached owed ticket =>
    rw [calls] at hc'
    obtain rfl : c' = c := by
      refine hg.unique _ _ ?_ collecting.draining
      rcases hc' with hcol | hleave
      · exact hcol.draining
      · simp [hleave,Call.Draining]
    by_cases hij : j = i
    · subst hij
      exact ⟨k,data,ticket⟩
    · exact hkeep hc' j (by rw [owed]; simp [hij,hj])
  | acknowledge calls barriers reached owed =>
    rw [calls] at hc'
    rw [owed] at hj
    exact hkeep hc' j hj
  | @reset c tries pc calls barriers reached owed =>
    by_cases heq : c' = c
    · subst heq
      simp [State.owed,calls,barrierRequests] at hj
    · rw [calls,Function.update_of_ne heq] at hc'
      rw [owed c' heq] at hj
      exact hkeep hc' j hj
  | @close c pc calls finished barriers owed =>
    by_cases heq : c' = c
    · subst heq
      rcases pc with pc | pc
      · exact hkeep (.inl (by simp [pc,Call.Collecting])) j (by simp [State.owed,pc])
      · exact hkeep (.inl (by simp [pc,Call.Collecting])) j (by simp [State.owed,pc])
    · rw [calls,Function.update_of_ne heq] at hc'
      rw [owed c' heq] at hj
      exact hkeep hc' j hj

structure Drains (ok : Payload → Prop) (e : State κ) : Prop where
  clients : Clients ok e
  fifo : ∀ i, Fifo (e.shards i)
  guarded : Guarded e
  marked : Marked e
  acks : e.running = true → Acks e

theorem initEngine_drains (sold enq deq barrier : UInt64) :
    Drains ok (initEngine sold enq deq barrier : State κ) where
  clients := initEngine_clients sold enq deq barrier
  fifo _ := startShard_fifo
  guarded := initEngine_guarded sold enq deq barrier
  marked := by
    intro c hc
    simp [initEngine,Call.Collecting] at hc
  acks _ := by
    refine ⟨fun c hc => hc.elim,fun _ => ?_⟩
    simp [State.barriers,initEngine,Shard.pending,Shard.accepted,startShard,MpmcQueue.create]

theorem Drains.next (hok : ∀ r, ok r → r.2.2.2 ≠ barrierId) (h : Drains ok e) (ha : Admits ok e a)
    (hn : e.next a = some e') : Drains ok e' := by
  have hf : ∀ i, Fifo (e'.shards i) := by
    intro i
    rcases State.next_shard hn i with hs | hs
    · rw [hs]; exact h.fifo i
    · exact (h.fifo i).step hs
  have hs := State.next_drain hok h.clients h.guarded h.fifo hf hn
  refine ⟨h.clients.next ha hn,hf,h.guarded.next hn,h.marked.next (fun i => ?_) h.guarded hs,
    fun hr => ?_⟩
  · exact run_tickets (.single hn) i
  · have hrun := State.next_running hn hr
    exact (h.acks hrun).next h.guarded hrun hs

theorem run_drains (hok : ∀ r, ok r → r.2.2.2 ≠ barrierId) {as : List (Act κ)}
    (hr : system.Run e as e') (ha : system.Along (Admits ok) e as) (h : Drains ok e) : Drains ok e' :=
  hr.invariant_along (fun _ _ _ h ha hn => h.next hok ha hn) ha h

/-- When a drain ends, the requests accepted before it began were processed, and
a barrier after them was taken from the queue. -/
theorem Drains.processed {as : List (Act κ)} (h : Drains ok e) (hr : system.Run e as e')
    (h' : Drains ok e') (hrun : e'.running = true) (hc : (e.calls c).Unmarked)
    (hc' : e'.calls c = .leaveDrain) (i : ShardId) :
    ∃ r more, payloads (e'.shards i).worker.processed = payloads (e.shards i).accepted ++ r :: more := by
  have hnone : ∀ c, ¬ (e'.calls c).Collecting := by
    intro c' hcol
    obtain rfl : c' = c := h'.guarded.unique _ _ hcol.draining (by simp [hc',Call.Draining])
    simp [hc',Call.Collecting] at hcol
  have hzero : (e'.shards i).pending.countP isBarrier = 0 :=
    Finset.sum_eq_zero_iff.mp ((h'.acks hrun).quiet hnone) i (Finset.mem_univ i)
  obtain ⟨k,data,hm⟩ := h'.marked c (.inr hc') i (by simp [State.owed,hc'])
  obtain ⟨t,ht⟩ := List.mem_iff_getElem?.mp hm
  have hbarrier : data.payload.2.2.2 = barrierId :=
    (h'.fifo i).ingress.tickets_carry (h'.clients.queues i) ht
  have htickets := run_tickets hr i
  -- the barrier's ticket comes after those won before the drain began
  have hlate : (e.shards i).queue.tickets.length ≤ t := by
    by_contra hlt
    obtain ⟨more,hmore⟩ := htickets
    rw [← hmore,List.getElem?_append_left (by omega)] at ht
    have hin : .client .barrier c k ∈ (e.shards i).queue.tickets.map Prod.fst :=
      List.mem_map.mpr ⟨_,List.mem_of_getElem? ht,rfl⟩
    rw [(h.fifo i).ingress.mem_tickets_iff,h.guarded.unmarked c hc i k] at hin
    simp [MpmcQueue.Pc.enqueued] at hin
  have hdone : t < (payloads (e'.shards i).worker.processed).length := by
    by_contra hge
    have hget := Shard.payload_of_ticket ht
    rw [← (h'.fifo i).processed_append_pending,List.getElem?_append_right (by omega)] at hget
    have := List.countP_eq_zero.mp hzero _ (List.mem_of_getElem? hget)
    simp [isBarrier,hbarrier] at this
  have hpre : payloads (e.shards i).accepted <+: payloads (e'.shards i).worker.processed := by
    have hf := h'.fifo i
    refine List.prefix_of_prefix_length_le ?_ hf.processed_prefix ?_
    · exact (htickets.map _).map _
    · simp only [payloads,Shard.accepted,List.length_map] at hdone ⊢
      omega
  obtain ⟨more,hmore⟩ := hpre
  cases more with
  | nil =>
    rw [← hmore] at hdone
    simp only [payloads,Shard.accepted,List.append_nil,List.length_map] at hdone
    omega
  | cons r more => exact ⟨r,more,hmore.symm⟩

/-- A drain that is not refused and returns while the engine runs is a barrier: on every
shard the requests accepted before it have been processed, another was taken up
after them, and their results are in the result queue. -/
theorem drain_barrier {sold enq deq barrier : UInt64} {as bs : List (Act κ)} {e'' : State κ}
    {tries : Nat} {now : Int64} {spurious : Bool}
    (hr : system.Run (initEngine sold enq deq barrier) as e) (hr' : system.Run e bs e')
    (ha : system.Along (Admits fun r => r.2.2.2 ≠ barrierId) (initEngine sold enq deq barrier) as)
    (hb : system.Along (Admits fun r => r.2.2.2 ≠ barrierId) e bs)
    (hc : e.calls c = .enterDrain tries) (hc' : e'.calls c = .leaveDrain)
    (hn : system.next e' (.client c now spurious) = some e'') (hrun : e''.running = true) (i : ShardId) :
    (∀ c' k req t, (e.shards i).queue.pc (.client .once c' k) = .enqReturn req (some t) →
      (payloads (e''.shards i).worker.processed)[t]? = some req.payload) ∧
    (∃ r more, payloads (e''.shards i).worker.processed =
      payloads (e.shards i).accepted ++ r :: more) ∧
    Reported e''.shared.resultQueue i (payloads (e.shards i).accepted) := by
  have hok : ∀ r : Payload, r.2.2.2 ≠ barrierId → r.2.2.2 ≠ barrierId := fun _ => id
  have h := run_drains hok hr ha (initEngine_drains sold enq deq barrier)
  have h' := run_drains hok hr' hb h
  have hrun' : e'.running = true := State.next_running (a := .client c now spurious) hn hrun
  obtain ⟨r,more,hp⟩ := h.processed hr' h' hrun'
    (by simp [hc,Call.Unmarked]) hc' i
  have hreach : system.Reachable e'' :=
    System.Reachable.step ⟨_,_,⟨sold,enq,deq,barrier,rfl⟩,hr.append hr'⟩ hn
  have hlast : payloads (e''.shards i).worker.processed = payloads (e'.shards i).worker.processed := by
    simp only [system,State.next,State.client,hc',Option.some.injEq] at hn
    subst hn
    rfl
  rw [← hlast] at hp
  obtain ⟨hlatest,hordered⟩ := reachable_reported hreach i
  have hresults := reachable_results hreach
  refine ⟨fun c' k req t hret => ?_,⟨r,more,hp⟩,
    (hresults.posting i).reported hresults.inv hlatest hordered hp⟩
  have hticket := (h.fifo i).ingress.recorded_enqueue (by rw [hret]; rfl)
  rw [hp]
  exact getElem?_of_isPrefix (List.prefix_append _ _) (Shard.payload_of_ticket hticket)

end Steps

def drainStart : List (Act Nat) := acceptRun ++ [.start 1 .waitEngineDrained]

def drainRun : List (Act Nat) :=
  List.replicate 17 (.client 1 2 false) ++ List.replicate 24 (.dispatch 1 3 4 false) ++
    List.replicate 12 (.dispatch 0 3 4 false) ++ List.replicate 16 (.work 0 default) ++
    List.replicate 32 (.work 1 default) ++ [.client 1 4 false]

def drainState : State Nat :=
  (system.exec (initEngine 0 0 0 0) drainStart).get (by decide +kernel)

def drainedState : State Nat := (system.exec drainState drainRun).get (by decide +kernel)

def leftState : State Nat :=
  (system.exec drainedState [.client 1 5 false]).get (by decide +kernel)

theorem drainState_run : system.Run (initEngine 0 0 0 0) drainStart drainState :=
  System.run_of_exec (Option.some_get _).symm

theorem drainedState_run : system.Run drainState drainRun drainedState :=
  System.run_of_exec (Option.some_get _).symm

theorem drain_barrier_one :
    (payloads (leftState.shards 1).worker.processed).map Payload.requestId = [5,barrierId] ∧
    (payloads (leftState.shards 1).worker.processed)[0]? = some (saleRequest 5).payload ∧
    Reported leftState.shared.resultQueue 1 (payloads (drainState.shards 1).accepted) := by
  have hc : drainState.calls 1 = .enterDrain 0 := by decide +kernel
  have hc' : drainedState.calls 1 = .leaveDrain := by decide +kernel
  have hrun : leftState.running = true := by decide +kernel
  have ha : ∀ a ∈ drainStart, ∀ req ∈ a.requests, req.payload.2.2.2 ≠ barrierId := by decide +kernel
  have hb : ∀ a ∈ drainRun, ∀ req ∈ a.requests, req.payload.2.2.2 ≠ barrierId := by decide +kernel
  have hn : system.next drainedState (.client 1 5 false) = some leftState :=
    System.next_of_exec (Option.some_get _).symm
  have h := drain_barrier drainState_run drainedState_run (along_admits ha) (along_admits hb)
    hc hc' hn hrun 1
  have hret : (drainState.shards 1).queue.pc (.client .once 0 0) =
      .enqReturn { saleRequest 5 with tsIngress := 1 } (some 0) := by decide +kernel
  exact ⟨by decide +kernel,h.1 0 0 { saleRequest 5 with tsIngress := 1 } 0 hret,h.2.2⟩

end Flashsale.Engine
