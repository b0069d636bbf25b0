import Flashsale.EndToEnd
import Flashsale.Ledger
import Flashsale.MpmcRecords
import Mathlib.Algebra.BigOperators.Fin
set_option autoImplicit false

namespace Flashsale.Engine
open Transition
variable {κ : Type}

/-- The requests accepted into the shard and not processed yet, in ticket order. -/
def Shard.pending (s : Shard κ) : List Payload :=
  (payloads s.accepted).drop s.worker.processed.length

theorem Fifo.processed_append_pending {s : Shard κ} (h : Fifo s) :
    payloads s.worker.processed ++ s.pending = payloads s.accepted := by
  have hpre := h.processed_prefix
  have hlen : s.worker.processed.length = (payloads s.worker.processed).length := by simp [payloads]
  rw [Shard.pending,hlen]
  exact List.prefix_iff_eq_append.mp hpre

inductive Flow (e : State κ) (i : ShardId) (s' : Shard κ) : Act κ → Prop where
  | quiet {a : Act κ} (tickets : s'.queue.tickets = (e.shards i).queue.tickets)
      (processed : s'.worker.processed = (e.shards i).worker.processed) : Flow e i s' a
  | accept {c : κ} {now : Int64} {spurious : Bool} {p : Push} {req data : Request}
      {rest : List (ShardId × Request)} (pc : e.calls c = .enqueuing p)
      (todo : p.todo = (i,req) :: rest)
      (item : ((e.shards i).queue.pc (p.caller c)).item = some data)
      (fresh : p.caller c ∉ (e.shards i).queue.tickets.map Prod.fst)
      (tickets : s'.queue.tickets = (e.shards i).queue.tickets ++ [(p.caller c,data)])
      (worker : s'.worker = (e.shards i).worker) : Flow e i s' (.client c now spurious)
  | process {inp : WorkerInput} {req : Request} {items : List Request} {count : Nat}
      {sh' : Shared κ} (pc : (e.shards i).worker.pc = .process (req :: items) count)
      (queue : s'.queue = (e.shards i).queue)
      (step : ProcessStep (e.shards i).worker e.shared req items count inp.uninit sh' s'.worker) :
      Flow e i s' (.work i inp)

def State.takesUp (e : State κ) : Act κ → Option (ShardId × Request)
  | .work i _ =>
      match (e.shards i).worker.pc with
      | .process (req :: _) _ => some (i,req)
      | _ => none
  | _ => none

section Steps
variable {e e' : State κ} {i : ShardId} {a : Act κ} {s' : Shard κ}

theorem State.takesUp_eq_some {req : Request} : e.takesUp a = some (i,req) ↔
    ∃ inp items count, a = .work i inp ∧ (e.shards i).worker.pc = .process (req :: items) count := by
  constructor
  · intro h
    unfold State.takesUp at h
    split at h
    · split at h
      · rename_i hpc
        cases h
        exact ⟨_,_,_,rfl,hpc⟩
      · cases h
    · cases h
  · rintro ⟨inp,items,count,rfl,hpc⟩
    simp [State.takesUp,hpc]

theorem Shard.pending_congr (ht : s'.queue.tickets = (e.shards i).queue.tickets)
    (hp : s'.worker.processed = (e.shards i).worker.processed) :
    s'.pending = (e.shards i).pending := by simp only [Shard.pending,Shard.accepted,ht,hp]

theorem Fifo.pending_accept {c : Caller κ} {data : Request} (hf : Fifo (e.shards i))
    (ht : s'.queue.tickets = (e.shards i).queue.tickets ++ [(c,data)])
    (hw : s'.worker = (e.shards i).worker) :
    s'.pending = (e.shards i).pending ++ [data.payload] := by
  have hlen := hf.processed_prefix.length_le
  simp only [payloads,List.length_map] at hlen
  simp only [Shard.pending,Shard.accepted,ht,hw,List.map_append,payloads_append]
  exact List.drop_append_of_le_length (by simpa [payloads,Shard.accepted] using hlen)

theorem Fifo.pending_process {req : Request} (hf : Fifo (e.shards i)) (hf' : Fifo s')
    (hq : s'.queue = (e.shards i).queue)
    (hp : s'.worker.processed = (e.shards i).worker.processed ++ [req]) :
    (e.shards i).pending = req.payload :: s'.pending := by
  have h := hf.processed_append_pending
  have h' := hf'.processed_append_pending
  have hacc : s'.accepted = (e.shards i).accepted := by rw [Shard.accepted,hq]; rfl
  rw [hacc,hp,payloads_append,← h,List.append_assoc] at h'
  exact (List.append_cancel_left h').symm

variable [DecidableEq κ]

theorem ShardStep.flow (hf : Fifo (e.shards i)) (hs : ShardStep e i a s') : Flow e i s' a := by
  have hf' := hf.step hs
  cases hs with
  | enqueue _ _ hc ht hn =>
    obtain ⟨-,rfl⟩ := MpmcQueue.State.call_eq hn
    exact .quiet rfl rfl
  | attempt _ _ hc ht hn =>
    cases (MpmcQueue.State.step_effect hn).2.2 with
    | quiet htk _ _ => exact .quiet htk rfl
    | won data hi htk _ => exact .accept hc ht hi (hf'.ingress.fresh_of_won htk) htk rfl
    | took _ _ _ htk _ => exact .quiet htk rfl
  | call _ _ _ _ _ hn =>
    obtain ⟨-,rfl⟩ := MpmcQueue.State.call_eq hn
    exact .quiet rfl rfl
  | @dequeue k q _ _ _ hd hn =>
    have hhand : HandOk (e.shards i) (.dequeue k) := hd ▸ hf.hand
    cases (MpmcQueue.State.step_effect hn).2.2 with
    | quiet htk _ _ => exact .quiet htk rfl
    | won data hi htk _ =>
      rw [MpmcQueue.Pc.item_eq_none_of_dequeuing hhand.1] at hi
      cases hi
    | took _ _ _ htk _ => exact .quiet htk rfl
  | work hn =>
    rcases (Worker.step_cases hn).ledger with ⟨hp,-,-⟩ | ⟨req,items,count,hpc,hstep⟩
    · exact .quiet rfl hp
    · exact .process hpc rfl hstep
  | _ => exact .quiet rfl rfl

theorem State.next_flow (hf : ∀ i, Fifo (e.shards i)) (hn : e.next a = some e') (i : ShardId) :
    Flow e i (e'.shards i) a := by
  rcases State.next_shard hn i with hs | hs
  · rw [hs]
    exact .quiet rfl rfl
  · exact hs.flow (hf i)

end Steps
end Flashsale.Engine
