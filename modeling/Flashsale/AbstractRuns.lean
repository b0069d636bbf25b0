import Flashsale.Flow
import Flashsale.Idempotency
import Mathlib.Data.Multiset.AddSub
set_option autoImplicit false

namespace Flashsale.Engine
open Transition Transducer
variable {κ : Type}

inductive Abstract.Act where
  | accept (r : Payload)
  | process (r : Payload) (out : Option CSeckillResult)
  | poll (res : CSeckillResult)

def Abstract.next (e : Abstract) : Abstract.Act → Option Abstract
  | .accept r => some (e.accept r)
  | .process r out => e.process r out
  | .poll res => e.poll res

def Abstract.system : System Abstract Abstract.Act where
  init e := e = .empty
  next := Abstract.next

def unpolled (q : ResultQueue κ) : List CSeckillResult :=
  (q.tickets.drop q.takers.length).map (·.2)

def Worker.takenIds (w : Worker) : Finset UInt64 :=
  ((payloads w.processed).map Payload.requestId).toFinset

def State.inHand (e : State κ) (i : ShardId) : Multiset CSeckillResult :=
  ((e.shards i).worker.unposted e.shared.resultQueue i).toList

/-- A request is accepted when its ticket is won, decided when `Process` takes it up, and
its result is there from then on. -/
def State.abstract (e : State κ) : Abstract where
  accepted := ∑ i, ((e.shards i).pending : Multiset Payload)
  decided := Finset.univ.biUnion fun i => (e.shards i).worker.takenIds
  results := (unpolled e.shared.resultQueue : Multiset CSeckillResult) + ∑ i, e.inHand i

/-- A union over components of which one gained an element. -/
theorem biUnion_insert {ι α : Type} [Fintype ι] [DecidableEq α] {f g : ι → Finset α} {i : ι} {x : α}
    (hne : ∀ j, j ≠ i → f j = g j) (hi : f i = insert x (g i)) :
    Finset.univ.biUnion f = insert x (Finset.univ.biUnion g) := by
  ext y
  simp only [Finset.mem_biUnion,Finset.mem_insert,Finset.mem_univ,true_and]
  constructor
  · rintro ⟨j,hj⟩
    by_cases hji : j = i
    · rw [hji,hi,Finset.mem_insert] at hj
      exact hj.imp id fun hj => ⟨i,hj⟩
    · exact .inr ⟨j,hne j hji ▸ hj⟩
  · rintro (rfl | ⟨j,hj⟩)
    · exact ⟨i,by rw [hi]; exact Finset.mem_insert_self _ _⟩
    · by_cases hji : j = i
      · exact ⟨i,by rw [hi]; exact Finset.mem_insert_of_mem (hji ▸ hj)⟩
      · exact ⟨j,by rw [hne j hji]; exact hj⟩

section Queue
variable {q q' : ResultQueue κ} {c : ResultCaller κ}

theorem unpolled_congr (ht : q'.tickets = q.tickets) (hr : q'.takers = q.takers) :
    unpolled q' = unpolled q := by rw [unpolled,unpolled,ht,hr]

theorem unpolled_won {data : CSeckillResult} (hle : q.takers.length ≤ q.tickets.length)
    (ht : q'.tickets = q.tickets ++ [(c,data)]) (hr : q'.takers = q.takers) :
    unpolled q' = unpolled q ++ [data] := by
  rw [unpolled,unpolled,ht,hr,List.drop_append_of_le_length hle,List.map_append]
  rfl

theorem unpolled_took (hlt : q.takers.length < q.tickets.length) (ht : q'.tickets = q.tickets)
    (hr : q'.takers = q.takers ++ [c]) : ∃ res, unpolled q = res :: unpolled q' := by
  refine ⟨(q.tickets[q.takers.length]).2,?_⟩
  rw [unpolled,unpolled,ht,hr,List.length_append,List.length_singleton,
    List.drop_eq_getElem_cons hlt,List.map_cons]

end Queue

section Work
variable {w w' : Worker} {i : ShardId} {e : State κ} {sh' : Shared κ} {inp : WorkerInput}
variable [DecidableEq κ]

theorem Posting.settle {q q' : ResultQueue κ} {res : CSeckillResult} {items : List Request}
    {count : Nat} {b : Bool} (h : Posting w q i) (hi : MpmcQueue.Inv (1024*16) q)
    (hpc : w.pc = .publish res items count) (hn : q.next (.step (.worker i w.tries) b) = some q') :
    ((unpolled q' ++ (w.unposted q' i).toList : List CSeckillResult) : Multiset CSeckillResult) =
      (unpolled q ++ (w.unposted q i).toList : List CSeckillResult) := by
  have hi' : MpmcQueue.Inv (1024*16) q' := hi.next trivial hn
  have hitem := h.carried res items count hpc
  obtain ⟨-,-,heff⟩ := MpmcQueue.State.step_effect hn
  simp only [Worker.unposted,hpc]
  cases heff with
  | quiet htk htr hd =>
    have hsame : (q'.pc (.worker i w.tries)).enqueued.isSome =
        (q.pc (.worker i w.tries)).enqueued.isSome := by
      rw [Bool.eq_iff_iff,hi'.enqueued_iff,hi.enqueued_iff,htk]
    rw [unpolled_congr htk htr,hsame]
  | won data hdata htk htr =>
    obtain rfl : data = res := Option.some.inj (hdata.symm.trans hitem)
    have hafter : (q'.pc (.worker i w.tries)).enqueued.isSome :=
      hi'.enqueued_iff.mpr ⟨data,by simp [htk]⟩
    have hbefore : (q.pc (.worker i w.tries)).enqueued.isSome = false := by
      simpa [hi.mem_tickets_iff] using hi'.fresh_of_won htk
    rw [unpolled_won hi.order htk htr,hafter,hbefore]
    simp
  | took hdeq hb haf htk htr =>
    rw [MpmcQueue.Pc.item_eq_none_of_dequeuing hdeq] at hitem
    cases hitem

/-- Outside `Process` no result comes or goes. -/
theorem WorkStep.settle (h : Posting w e.shared.resultQueue i)
    (hi : MpmcQueue.Inv (1024*16) e.shared.resultQueue) (hs : WorkStep w e.shared i inp sh' w')
    (hpc : ∀ req items count, w.pc ≠ .process (req :: items) count) :
    ((unpolled sh'.resultQueue ++ (w'.unposted sh'.resultQueue i).toList : List CSeckillResult) :
      Multiset CSeckillResult) =
      (unpolled e.shared.resultQueue ++ (w.unposted e.shared.resultQueue i).toList :
        List CSeckillResult) := by
  have hquiet : ∀ {w' : Worker}, w.pc.publishing = false → w'.pc.publishing = false →
      w'.pc.result = w.pc.result →
      w'.unposted e.shared.resultQueue i = w.unposted e.shared.resultQueue i := by
    intro w' hpub hpub' hres
    rw [Worker.unposted_eq_result hpub,Worker.unposted_eq_result hpub',hres]
  cases hs with
  | ask recheck pc running next =>
    rw [hquiet (by rw [pc]; cases recheck <;> rfl) rfl (by rw [pc]; cases recheck <;> rfl)]
  | empty recheck pc ret =>
    rw [hquiet (by rw [pc]; rfl) (by cases recheck <;> rfl) (by rw [pc]; cases recheck <;> rfl)]
  | taken recheck pc ret nonempty => rw [hquiet (by rw [pc]; rfl) rfl (by rw [pc]; rfl)]
  | consume recheck pc ret next => rw [hquiet (by rw [pc]; rfl) rfl (by rw [pc])]
  | again pc running => rw [hquiet (by rw [pc]; rfl) rfl (by rw [pc]; rfl)]
  | busy pc | idle pc | addCount pc => rw [hquiet (by rw [pc]; rfl) rfl (by rw [pc]; rfl)]
  | process pc step => exact absurd pc (hpc _ _ _)
  | @flag req res items count pc =>
    obtain ⟨wal,hwal⟩ := w.journal_eq req res inp.systemNow
    obtain ⟨soldOut,hflag⟩ := e.shared.storeFlag_eq w req.skuId
    rw [hwal,hflag,hquiet (by rw [pc]; rfl) rfl (by rw [pc]; rfl)]
  | @offer res items count q pc next =>
    obtain ⟨-,rfl⟩ := MpmcQueue.State.call_eq next
    simp only [Worker.unposted,pc,MpmcQueue.State.goto_pc_self]
    rfl
  | publish pc next => exact h.settle hi pc next
  | published pc ret =>
    simp only [Worker.unposted,pc,ret,MpmcQueue.Pc.enqueued,Option.isSome_some,if_true]
  | refused pc ret =>
    simp only [Worker.unposted,pc,ret,MpmcQueue.Pc.enqueued,Option.isSome_none]
    rfl

end Work

section Steps
variable [DecidableEq κ] {e e' s : State κ} {a : Act κ} {i : ShardId}

theorem State.next_inHand (hn : e.next a = some e') (ha : ∀ inp, a ≠ .work i inp) :
    e'.inHand i = e.inHand i := by
  obtain ⟨hpc,ht,-⟩ := State.next_worker hn i ha
  have hq : ∀ k, e'.shared.resultQueue.pc (.worker i k) = e.shared.resultQueue.pc (.worker i k) := by
    intro k
    rcases State.next_results hn with hq | hq
    · rw [hq]
    · obtain ⟨b,c,hb,hcall,-,hby,-⟩ := hq.cases
      have hne : ResultCaller.worker i k ≠ c := by
        rintro rfl
        simpa [ResultCaller.by] using hby i ha
      rcases hcall with rfl | ⟨data,rfl⟩ | ⟨x,rfl⟩
      · obtain ⟨-,he⟩ := MpmcQueue.State.call_eq hb
        rw [he,MpmcQueue.State.goto_pc_of_ne hne]
      · obtain ⟨-,he⟩ := MpmcQueue.State.call_eq hb
        rw [he,MpmcQueue.State.goto_pc_of_ne hne]
      · exact MpmcQueue.State.step_pc_of_ne hb hne
  simp only [State.inHand,Worker.unposted,hpc,ht,hq]

theorem State.next_unpolled (h : Results e) (hp : Posters e.shared.resultQueue)
    (hn : e.next a = some e')
    (ha : ∀ i inp, a ≠ .work i inp) : unpolled e'.shared.resultQueue = unpolled e.shared.resultQueue ∨
      ∃ c now b res, a = .client c now b ∧ e.calls c = .polling ∧
        unpolled e.shared.resultQueue = res :: unpolled e'.shared.resultQueue := by
  rcases State.next_results hn with hq | hq
  · exact .inl (by rw [hq])
  generalize e'.shared.resultQueue = q at hq
  cases hq with
  | offer pc next | publish pc next => exact absurd rfl (ha _ _)
  | ask idle next =>
    obtain ⟨-,rfl⟩ := MpmcQueue.State.call_eq next
    exact .inl rfl
  | @poll c now b q polling next =>
    have hi' : MpmcQueue.Inv (1024*16) q := h.inv.next trivial next
    cases (MpmcQueue.State.step_effect next).2.2 with
    | quiet ht hr _ => exact .inl (unpolled_congr ht hr)
    | won data item _ _ =>
      obtain ⟨i,k,hk⟩ := hp _ _ item
      cases hk
    | took _ _ _ ht hr =>
      have hlt : e.shared.resultQueue.takers.length < e.shared.resultQueue.tickets.length := by
        have horder := hi'.order
        rw [ht,hr,List.length_append,List.length_singleton] at horder
        omega
      obtain ⟨res,hres⟩ := unpolled_took hlt ht hr
      exact .inr ⟨c,now,b,res,rfl,polling,hres⟩

theorem State.next_pending (hf : ∀ i, Fifo (e.shards i)) (hn : e.next a = some e')
    (ha : ∀ i inp, a ≠ .work i inp) : (∀ i, (e'.shards i).pending = (e.shards i).pending) ∨
      ∃ c now b p i data, a = .client c now b ∧ e.calls c = .enqueuing p ∧
        ((e.shards i).queue.pc (p.caller c)).item = some data ∧
        (e'.shards i).pending = (e.shards i).pending ++ [data.payload] ∧
        ∀ j, j ≠ i → (e'.shards j).pending = (e.shards j).pending := by
  by_cases hquiet : ∀ i, (e'.shards i).pending = (e.shards i).pending
  · exact .inl hquiet
  obtain ⟨i,hi⟩ := not_forall.mp hquiet
  have hflow := State.next_flow hf hn i
  generalize hs : e'.shards i = s' at hflow
  cases hflow with
  | quiet ht hp => exact absurd (hs ▸ Shard.pending_congr ht hp) hi
  | process => exact absurd rfl (ha _ _)
  | @accept c now b p req data rest pc todo item fresh tickets worker =>
    refine .inr ⟨c,now,b,p,i,data,rfl,pc,item,?_,fun j hj => ?_⟩
    · rw [hs]
      exact (hf i).pending_accept tickets worker
    · have hflow := State.next_flow hf hn j
      generalize e'.shards j = s'' at hflow
      cases hflow with
      | quiet ht hp => exact Shard.pending_congr ht hp
      | accept pc' todo' =>
        rw [pc] at pc'
        cases pc'
        rw [todo] at todo'
        cases todo'
        exact absurd rfl hj

theorem Ledger.outcome {l : Ledger} {decided : Finset UInt64} {r : Payload}
    {out : Option CSeckillResult} (hseen : ∀ reqId ∈ l.seen, reqId ∈ decided)
    (h : Option.Rel Verdict.Of (l.process r).2 out) : Outcome decided r out := by
  by_cases hid : r.Control
  · rw [Ledger.process_control hid] at h
    cases h
    exact hid.imp_right .inl
  have hzero : r.requestId ≠ 0 := fun h => hid (.inl h)
  have hbarrier : r.requestId ≠ barrierId := fun h => hid (.inr h)
  by_cases hlim : r.requestId > benchmarkLimit
  · rw [Ledger.process_benchmark hid hlim] at h
    cases h with
    | some hres => exact ⟨hres.1,hzero,hbarrier,by rw [if_pos hlim]; exact hres.2⟩
  by_cases hdup : r.requestId ∈ l.seen
  · have hnone : l.process r = (l,none) :=
      (if_neg hid).trans ((if_neg hlim).trans (if_pos hdup))
    rw [hnone] at h
    cases h
    exact .inr (.inr (hseen _ hdup))
  · rw [Ledger.process_fresh hid hlim hdup] at h
    cases h with
    | some hres =>
      refine ⟨congrArg Payload.requestId hres.1,hzero,hbarrier,?_⟩
      rw [if_neg hlim]
      refine ⟨hres.1,?_⟩
      rw [hres.2]
      unfold deductFrom
      repeat' split
      all_goals simp

theorem Recorded.seen_taken {w : Worker} (h : Recorded w) {reqId : UInt64}
    (hs : reqId ∈ w.ledger.seen) : reqId ∈ w.takenIds := by
  rw [h.ledger] at hs
  rcases after_seen hs with hs | ⟨r,hr,rfl⟩
  · cases hs
  · exact List.mem_toFinset.mpr (List.mem_map_of_mem hr)

theorem Worker.takenIds_concat {w w' : Worker} {req : Request}
    (hp : w'.processed = w.processed ++ [req]) :
    w'.takenIds = insert req.requestId w.takenIds := by
  ext reqId
  simp [Worker.takenIds,hp,payloads,Payload.requestId,Request.payload,eq_comm]

theorem State.next_work {inp : WorkerInput} (hn : e.next (.work i inp) = some e') :
    WorkStep (e.shards i).worker e.shared i inp e'.shared (e'.shards i).worker ∧
      (e'.shards i).queue = (e.shards i).queue ∧ ∀ j, j ≠ i → e'.shards j = e.shards j := by
  obtain ⟨⟨sh,w⟩,hw,rfl⟩ := Option.map_eq_some_iff.mp hn
  refine ⟨?_,?_,fun j hj => State.setShard_shards_of_ne hj⟩
  · rw [State.setShard_shards_self]
    exact Worker.step_cases hw
  · rw [State.setShard_shards_self]

theorem WorkStep.processes {w w' : Worker} {sh sh' : Shared κ} {inp : WorkerInput} {req : Request}
    {items : List Request} {count : Nat} (hs : WorkStep w sh i inp sh' w')
    (hpc : w.pc = .process (req :: items) count) :
    ProcessStep w sh req items count inp.uninit sh' w' := by
  cases hs with
  | process pc step =>
    rw [hpc] at pc
    cases pc
    exact step
  | ask recheck pc => cases recheck <;> simp [hpc] at pc
  | _ => simp_all

theorem State.process_abstract {inp : WorkerInput} {req : Request} {items : List Request}
    {count : Nat} (h : system.Reachable e)
    (hpc : (e.shards i).worker.pc = .process (req :: items) count)
    (hn : system.next e (.work i inp) = some e') :
    e.abstract.process req.payload (e'.shards i).worker.pc.result = some e'.abstract := by
  obtain ⟨hwork,hqueue,hne⟩ := State.next_work hn
  have hstep := hwork.processes hpc
  obtain ⟨hp,-,-,hrel⟩ := hstep.ledger
  have hq : e'.shared.resultQueue = e.shared.resultQueue := by
    generalize e'.shared = sh,(e'.shards i).worker = w at hstep
    cases hstep <;> rfl
  have hpub : (e'.shards i).worker.pc.publishing = false := by
    generalize e'.shared = sh,(e'.shards i).worker = w at hstep
    cases hstep <;> rfl
  have hacc : e.abstract.accepted = req.payload ::ₘ e'.abstract.accepted := by
    have hpend := (reachable_fifo h i).pending_process (reachable_fifo (h.step hn) i) hqueue hp
    rw [← Multiset.singleton_add,add_comm]
    simp only [State.abstract]
    refine sum_add_of_ne (i := i) (fun j hj => by rw [hne j hj]) ?_
    rw [hpend,add_comm,Multiset.singleton_add,Multiset.cons_coe]
  have hdec : e'.abstract.decided = insert (Payload.requestId req.payload) e.abstract.decided :=
    biUnion_insert (i := i) (fun j hj => by rw [hne j hj]) (Worker.takenIds_concat hp)
  have hres : e'.abstract.results =
      (e'.shards i).worker.pc.result.elim e.abstract.results (· ::ₘ e.abstract.results) := by
    have hbefore : (e.shards i).worker.unposted e.shared.resultQueue i = none := by
      simp only [Worker.unposted,hpc]
    have hsum : ∑ j, e'.inHand j =
        ∑ j, e.inHand j + ((e'.shards i).worker.pc.result.toList : Multiset CSeckillResult) := by
      refine sum_add_of_ne (i := i) (fun j hj => by rw [State.inHand,State.inHand,hne j hj,hq]) ?_
      rw [State.inHand,State.inHand,Worker.unposted_eq_result hpub,hbefore]
      simp
    simp only [State.abstract,hq,hsum,← add_assoc]
    cases (e'.shards i).worker.pc.result with
    | none => simp
    | some res => simp [add_comm]
  have hout : Outcome e.abstract.decided req.payload (e'.shards i).worker.pc.result := by
    refine Ledger.outcome (fun reqId hs => ?_) hrel
    exact Finset.mem_biUnion.mpr ⟨i,Finset.mem_univ _,(reachable_recorded h i).seen_taken hs⟩
  rw [Abstract.process,if_pos ⟨by simp [hacc],hout⟩,hacc,Multiset.erase_cons_head,← hdec,← hres]

theorem State.work_abstract {inp : WorkerInput} (h : Results e)
    (hpc : ∀ req items count, (e.shards i).worker.pc ≠ .process (req :: items) count)
    (hn : e.next (.work i inp) = some e') : e'.abstract = e.abstract := by
  obtain ⟨hwork,hqueue,hne⟩ := State.next_work hn
  have hp : (e'.shards i).worker.processed = (e.shards i).worker.processed := by
    rcases hwork.ledger with ⟨hp,-,-⟩ | ⟨req,items,count,hpc',-⟩
    · exact hp
    · exact absurd hpc' (hpc _ _ _)
  have hshard : ∀ j, (e'.shards j).pending = (e.shards j).pending ∧
      (e'.shards j).worker.takenIds = (e.shards j).worker.takenIds := by
    intro j
    by_cases hj : j = i
    · subst hj
      exact ⟨Shard.pending_congr (by rw [hqueue]) hp,by rw [Worker.takenIds,Worker.takenIds,hp]⟩
    · rw [hne j hj]
      exact ⟨rfl,rfl⟩
  have hsettle := hwork.settle (h.posting i) h.inv hpc
  have hres : ∑ j, e'.inHand j + (unpolled e'.shared.resultQueue : Multiset CSeckillResult) =
      ∑ j, e.inHand j + (unpolled e.shared.resultQueue : Multiset CSeckillResult) := by
    refine sum_balance (i := i) (fun j hj => State.next_inHand hn ?_) ?_
    · rintro inp ⟨⟩
      exact hj rfl
    · rw [← Multiset.coe_add,← Multiset.coe_add] at hsettle
      rw [add_comm,add_comm (e.inHand i)]
      exact hsettle
  rw [add_comm,add_comm (∑ j, e.inHand j)] at hres
  simp only [State.abstract,hres,(hshard _).1,(hshard _).2]

/-- The act of the abstract engine that a step of a caller or of a worker may be. -/
inductive State.Sees (e : State κ) : Act κ → Abstract.Act → Prop where
  | accept {c : κ} {now : Int64} {spurious : Bool} {p : Push} {i : ShardId} {data : Request}
      (pc : e.calls c = .enqueuing p)
      (item : ((e.shards i).queue.pc (p.caller c)).item = some data) :
      Sees e (.client c now spurious) (.accept data.payload)
  | process {i : ShardId} {inp : WorkerInput} {req : Request} {items : List Request} {count : Nat}
      {out : Option CSeckillResult} (pc : (e.shards i).worker.pc = .process (req :: items) count) :
      Sees e (.work i inp) (.process req.payload out)
  | poll {c : κ} {now : Int64} {spurious : Bool} {res : CSeckillResult} (pc : e.calls c = .polling) :
      Sees e (.client c now spurious) (.poll res)

/-- Each step of the engine is one of the abstract engine, or none at all. -/
theorem State.next_abstract (h : system.Reachable e) (hn : system.next e a = some e') :
    e'.abstract = e.abstract ∨
      ∃ b, e.Sees a b ∧ Abstract.system.next e.abstract b = some e'.abstract := by
  by_cases hwork : ∃ i inp, a = .work i inp
  · obtain ⟨i,inp,rfl⟩ := hwork
    by_cases hpc : ∃ req items count, (e.shards i).worker.pc = .process (req :: items) count
    · obtain ⟨req,items,count,hpc⟩ := hpc
      exact .inr ⟨_,.process hpc,State.process_abstract h hpc hn⟩
    · push Not at hpc
      exact .inl (State.work_abstract (reachable_results h) hpc hn)
  push Not at hwork
  have hhand : ∀ i, e'.inHand i = e.inHand i := fun i => State.next_inHand hn (hwork i)
  have htaken : ∀ i, (e'.shards i).worker.takenIds = (e.shards i).worker.takenIds := fun i => by
    rw [Worker.takenIds,Worker.takenIds,(State.next_worker hn i (hwork i)).2.2]
  have hpoll := State.next_unpolled (reachable_results h) (reachable_posters h) hn hwork
  rcases State.next_pending (reachable_fifo h) hn hwork with hpend | hpend
  · rcases hpoll with hpoll | ⟨c,now,b,res,rfl,hcall,hpoll⟩
    · left
      simp only [State.abstract,hhand,htaken,hpend,hpoll]
    · right
      refine ⟨.poll res,.poll hcall,?_⟩
      change Abstract.poll _ _ = _
      rw [Abstract.poll,if_pos (by simp [State.abstract,hpoll])]
      simp only [State.abstract,hhand,htaken,hpend,hpoll,← Multiset.cons_coe,Multiset.cons_add,
        Multiset.erase_cons_head]
  · obtain ⟨c,now,b,p,i,data,rfl,hcall,hitem,hi,hne⟩ := hpend
    rcases hpoll with hpoll | ⟨c',now',b',res,hact,hcall',-⟩
    · right
      refine ⟨_,.accept hcall hitem,?_⟩
      have hsum : ∑ j, ((e'.shards j).pending : Multiset Payload) =
          ∑ j, ((e.shards j).pending : Multiset Payload) + {data.payload} := by
        refine sum_add_of_ne (i := i) (fun j hj => by rw [hne j hj]) ?_
        rw [hi,← Multiset.coe_add,Multiset.coe_singleton]
      change some (Abstract.accept _ _) = _
      simp only [Abstract.accept,State.abstract,hhand,htaken,hpoll,hsum,add_comm,
        Multiset.singleton_add]
    · cases hact
      rw [hcall] at hcall'
      cases hcall'

end Steps

section Runs
variable {e s : State κ}

theorem initEngine_abstract (sold enq deq barrier : UInt64) :
    (initEngine sold enq deq barrier : State κ).abstract = .empty := by
  have hpending : (startShard : Shard κ).pending = [] := rfl
  have htaken : startWorker.takenIds = ∅ := rfl
  have hhand : ∀ i, (initEngine sold enq deq barrier : State κ).inHand i = 0 := fun _ => rfl
  have hempty : unpolled (initEngine sold enq deq barrier : State κ).shared.resultQueue = [] := rfl
  simp only [State.abstract,Abstract.empty,hhand,hempty]
  simp only [initEngine,hpending]
  simp [startShard,htaken,Finset.ext_iff]

variable [DecidableEq κ]

/-- Every run of the engine is one of the abstract engine, from the state it began in. -/
theorem run_abstract {as : List (Act κ)} (h : system.Reachable s) (hr : system.Run s as e) :
    ∃ bs, Abstract.system.Run s.abstract bs e.abstract :=
  hr.project_along (J := system.Reachable) (P := fun _ _ => True)
    (fun _ _ _ hs _ hn => hs.step hn)
    (fun _ _ _ hs _ hn => (State.next_abstract hs hn).imp_right fun ⟨b,_,hb⟩ => ⟨b,hb⟩)
    (System.along_of_forall fun _ _ _ => trivial) h

theorem reachable_abstract (h : system.Reachable e) : Abstract.system.Reachable e.abstract := by
  obtain ⟨s,as,hi,hr⟩ := h
  obtain ⟨bs,hb⟩ := run_abstract (.of_init hi) hr
  obtain ⟨_,_,_,_,rfl⟩ := hi
  exact ⟨_,bs,initEngine_abstract _ _ _ _,hb⟩

end Runs
end Flashsale.Engine
