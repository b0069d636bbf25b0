import Flashsale.Ledger
import Flashsale.MpmcRecords
set_option autoImplicit false

/-!
The result queue: each worker posts the results of its requests there, in their
order and once each, and holds at most the last one itself.
-/

namespace Flashsale.Engine
open Transition Transducer
variable {κ : Type}

abbrev ResultQueue (κ : Type) := MpmcQueue.State Nat CSeckillResult (ResultCaller κ)

def ResultCaller.by (i : ShardId) : ResultCaller κ → Bool
  | .worker j _ => j = i
  | .poller _ => false

/-- The results worker `i` won a ticket for. -/
def postedBy (q : ResultQueue κ) (i : ShardId) : List CSeckillResult :=
  (q.tickets.filter (·.1.by i)).map (·.2)

/-- The result worker `i` has computed and won no ticket for yet. -/
def Worker.unposted (w : Worker) (q : ResultQueue κ) (i : ShardId) : Option CSeckillResult :=
  match w.pc with
  | .flag _ res _ _ | .notify res _ _ => some res
  | .publish res _ _ => if (q.pc (.worker i w.tries)).enqueued.isSome then none else some res
  | _ => none

def Loop.publishing : Loop → Bool
  | .publish _ _ _ => true
  | _ => false

structure Posting (w : Worker) (q : ResultQueue κ) (i : ShardId) : Prop where
  future : ∀ k, w.tries < k → q.pc (.worker i k) = .idle
  present : w.pc.publishing = false → q.pc (.worker i w.tries) = .idle
  carried : ∀ res items count, w.pc = .publish res items count →
    (q.pc (.worker i w.tries)).item = some res
  past : ∀ k, k < w.tries → ∃ data won, q.pc (.worker i k) = .enqReturn data won
  posted : List.Forall₂ Verdict.Of (verdicts (payloads w.processed))
    (postedBy q i ++ (w.unposted q i).toList)

structure Results (e : State κ) : Prop where
  inv : MpmcQueue.Inv (1024*16) e.shared.resultQueue
  takers : MpmcQueue.Takers e.shared.resultQueue
  pollers : MpmcQueue.Consumers (fun c => ∃ k, c = .poller k) e.shared.resultQueue
  posting : ∀ i, Posting (e.shards i).worker e.shared.resultQueue i
  unasked : ∀ c, e.calls c = .idle → e.shared.resultQueue.pc (.poller c) = .idle

section Steps
variable [DecidableEq κ] {e e' : State κ} {a : Act κ} {q q' : ResultQueue κ}

inductive ResultStep (e : State κ) : Act κ → ResultQueue κ → Prop where
  | offer {i : ShardId} {inp : WorkerInput} {res : CSeckillResult} {items : List Request}
      {count : Nat} {q : ResultQueue κ} (pc : (e.shards i).worker.pc = .notify res items count)
      (next : e.shared.resultQueue.next (.enqueue (.worker i (e.shards i).worker.tries) res) = some q) :
      ResultStep e (.work i inp) q
  | publish {i : ShardId} {inp : WorkerInput} {res : CSeckillResult} {items : List Request}
      {count : Nat} {q : ResultQueue κ} (pc : (e.shards i).worker.pc = .publish res items count)
      (next : e.shared.resultQueue.next
        (.step (.worker i (e.shards i).worker.tries) inp.spurious) = some q) :
      ResultStep e (.work i inp) q
  | ask {c : κ} {q : ResultQueue κ} (idle : e.calls c = .idle)
      (next : e.shared.resultQueue.next (.dequeue (.poller c)) = some q) :
      ResultStep e (.start c .pollResult) q
  | poll {c : κ} {now : Int64} {spurious : Bool} {q : ResultQueue κ} (polling : e.calls c = .polling)
      (next : e.shared.resultQueue.next (.step (.poller c) spurious) = some q) :
      ResultStep e (.client c now spurious) q

theorem WorkStep.results {i : ShardId} {inp : WorkerInput} {sh' : Shared κ} {w' : Worker}
    (h : WorkStep (e.shards i).worker e.shared i inp sh' w') :
    sh'.resultQueue = e.shared.resultQueue ∨ ResultStep e (.work i inp) sh'.resultQueue := by
  cases h with
  | process pc step => cases step <;> exact .inl rfl
  | @flag req res items count pc =>
    obtain ⟨soldOut,hflag⟩ := e.shared.storeFlag_eq (e.shards i).worker req.skuId
    exact .inl (by rw [hflag])
  | offer pc next => exact .inr (.offer pc next)
  | publish pc next => exact .inr (.publish pc next)
  | _ => exact .inl rfl

theorem State.next_results (hn : e.next a = some e') :
    e'.shared.resultQueue = e.shared.resultQueue ∨ ResultStep e a e'.shared.resultQueue := by
  cases a with
  | start c f =>
    simp only [State.next,State.start] at hn
    split at hn
    · rename_i hidle
      cases f with
      | pollResult =>
        obtain ⟨q,hq,rfl⟩ := Option.map_eq_some_iff.mp hn
        exact .inr (.ask hidle hq)
      | _ => cases hn; exact .inl rfl
    · cases hn
  | client c now spurious =>
    simp only [State.next,State.client] at hn
    cases hc : e.calls c with
    | polling =>
      simp only [hc] at hn
      split at hn
      · cases hn
        exact .inl rfl
      · obtain ⟨q,hq,rfl⟩ := Option.map_eq_some_iff.mp hn
        exact .inr (.poll hc hq)
    | _ =>
      left
      simp only [hc] at hn
      repeat' split at hn
      all_goals first
        | (obtain ⟨q,-,rfl⟩ := Option.map_eq_some_iff.mp hn; rfl)
        | (cases hn; rfl)
        | cases hn
  | dispatch i pop push spurious =>
    left
    simp only [State.next,State.dispatch] at hn
    repeat' split at hn
    all_goals first
      | (obtain ⟨q,-,rfl⟩ := Option.map_eq_some_iff.mp hn; rfl)
      | (cases hn; rfl)
      | cases hn
  | work i inp =>
    obtain ⟨⟨sh,w⟩,hw,rfl⟩ := Option.map_eq_some_iff.mp hn
    exact (Worker.step_cases hw).results
  | stop => exact .inl (by rw [State.stopEngine_shared hn])

end Steps

section Posting
variable {w w' : Worker} {q q' : ResultQueue κ} {i : ShardId}

theorem Posting.frame (h : Posting w q i) (hpc : w'.pc = w.pc) (ht : w'.tries = w.tries)
    (hp : w'.processed = w.processed) (hq : ∀ k, q'.pc (.worker i k) = q.pc (.worker i k))
    (hposted : postedBy q' i = postedBy q i) : Posting w' q' i where
  future k hk := by rw [hq]; exact h.future k (ht ▸ hk)
  present hpub := by rw [hq,ht]; exact h.present (hpc ▸ hpub)
  carried res items count he := by rw [hq,ht]; exact h.carried res items count (hpc ▸ he)
  past k hk := by rw [hq]; exact h.past k (ht ▸ hk)
  posted := by
    have hun : w'.unposted q' i = w.unposted q i := by simp only [Worker.unposted,hpc,ht,hq]
    rw [hp,hposted,hun]
    exact h.posted

theorem Posting.quiet (h : Posting w q i) (hpub : w.pc.publishing = false)
    (hpub' : w'.pc.publishing = false) (ht : w'.tries = w.tries) (hp : w'.processed = w.processed)
    (hun : w'.unposted q i = w.unposted q i) : Posting w' q i where
  future k hk := h.future k (ht ▸ hk)
  present _ := by rw [ht]; exact h.present hpub
  carried res items count he := by rw [he] at hpub'; cases hpub'
  past k hk := h.past k (ht ▸ hk)
  posted := by rw [hp,hun]; exact h.posted

theorem Worker.unposted_eq_result (h : w.pc.publishing = false) : w.unposted q i = w.pc.result := by
  unfold Worker.unposted
  cases hpc : w.pc <;> simp_all [Loop.publishing,Loop.result]

theorem Posting.process {sh sh' : Shared κ} {req : Request} {items : List Request} {count : Nat}
    {uninit : CSeckillResult} (h : Posting w q i) (hr : Recorded w)
    (hpc : w.pc = .process (req :: items) count)
    (hs : ProcessStep w sh req items count uninit sh' w') : Posting w' q i := by
  obtain ⟨hp,-,-,hrel⟩ := hs.ledger
  have hpub : w.pc.publishing = false := by rw [hpc]; rfl
  have hpub' : w'.pc.publishing = false := by cases hs <;> rfl
  have htries : w'.tries = w.tries := by cases hs <;> rfl
  refine ⟨fun k hk => h.future k (htries ▸ hk),fun _ => by rw [htries]; exact h.present hpub,
    fun res items count he => ?_,fun k hk => h.past k (htries ▸ hk),?_⟩
  · rw [he] at hpub'
    cases hpub'
  · have hposted := h.posted
    rw [Worker.unposted_eq_result hpub,hpc] at hposted
    rw [hp,payloads_append,Worker.unposted_eq_result hpub']
    simp only [Loop.result,Option.toList_none,List.append_nil] at hposted
    have hlast : List.Forall₂ Verdict.Of (w.ledger.process req.payload).2.toList
        w'.pc.result.toList := by
      generalize (w.ledger.process req.payload).2 = v,w'.pc.result = res at hrel
      cases hrel with
      | none => exact .nil
      | some h => exact .cons h .nil
    change List.Forall₂ _ (verdicts (payloads w.processed ++ [req.payload])) _
    rw [verdicts_concat,← hr.ledger]
    exact List.rel_append hposted hlast

theorem postedBy_won {c : ResultCaller κ} {data : CSeckillResult}
    (ht : q'.tickets = q.tickets ++ [(c,data)]) :
    postedBy q' i = postedBy q i ++ if c.by i then [data] else [] := by
  unfold postedBy
  rw [ht,List.filter_append,List.map_append]
  by_cases hc : c.by i <;> simp [hc]

variable [DecidableEq κ]

/-- A step of another caller. -/
theorem Posting.other {a : MpmcQueue.Act CSeckillResult (ResultCaller κ)} {c : ResultCaller κ}
    (h : Posting w q i) (hpc : w'.pc = w.pc) (ht : w'.tries = w.tries)
    (hp : w'.processed = w.processed) (hc : c.by i = false)
    (ha : a = .dequeue c ∨ (∃ data, a = .enqueue c data) ∨ ∃ b, a = .step c b)
    (hn : q.next a = some q') : Posting w' q' i := by
  have hne : ∀ k, ResultCaller.worker i k ≠ c := by
    rintro k rfl
    simp [ResultCaller.by] at hc
  rcases ha with rfl | ⟨data,rfl⟩ | ⟨b,rfl⟩
  · obtain ⟨-,rfl⟩ := MpmcQueue.State.call_eq hn
    exact h.frame hpc ht hp (fun k => MpmcQueue.State.goto_pc_of_ne (hne k)) rfl
  · obtain ⟨-,rfl⟩ := MpmcQueue.State.call_eq hn
    exact h.frame hpc ht hp (fun k => MpmcQueue.State.goto_pc_of_ne (hne k)) rfl
  · refine h.frame hpc ht hp (fun k => MpmcQueue.State.step_pc_of_ne hn (hne k)) ?_
    cases (MpmcQueue.State.step_effect hn).2.2 with
    | quiet htk htr hd => simp [postedBy,htk]
    | won data hi htk htr => simp [postedBy_won htk,hc]
    | took hdeq hb haf htk htr => simp [postedBy,htk]

theorem Posting.offer {res : CSeckillResult} {items : List Request} {count : Nat}
    (h : Posting w q i) (hpc : w.pc = .notify res items count)
    (hn : q.next (.enqueue (.worker i w.tries) res) = some q') :
    Posting { w with pc := .publish res items count } q' i := by
  obtain ⟨-,rfl⟩ := MpmcQueue.State.call_eq hn
  refine ⟨fun k hk => ?_,nofun,fun r items' count' he => ?_,fun k hk => ?_,?_⟩
  · rw [MpmcQueue.State.goto_pc_of_ne (by simpa using (Nat.ne_of_lt hk).symm)]
    exact h.future k hk
  · cases he
    rw [MpmcQueue.State.goto_pc_self]
    rfl
  · rw [MpmcQueue.State.goto_pc_of_ne (by simpa using Nat.ne_of_lt hk)]
    exact h.past k hk
  · have hposted := h.posted
    simp only [Worker.unposted,hpc] at hposted
    simp only [Worker.unposted,MpmcQueue.State.goto_pc_self]
    exact hposted

theorem Posting.publish {res : CSeckillResult} {items : List Request} {count : Nat} {b : Bool}
    (h : Posting w q i) (hi : MpmcQueue.Inv (1024*16) q) (hpc : w.pc = .publish res items count)
    (hn : q.next (.step (.worker i w.tries) b) = some q') : Posting w q' i := by
  have hi' : MpmcQueue.Inv (1024*16) q' := hi.next trivial hn
  have hitem := h.carried res items count hpc
  obtain ⟨hitem',-,heff⟩ := MpmcQueue.State.step_effect hn
  have hstay : ∀ {k}, k ≠ w.tries → q'.pc (.worker i k) = q.pc (.worker i k) :=
    fun hk => MpmcQueue.State.step_pc_of_ne hn (by simpa using hk)
  refine ⟨fun k hk => ?_,fun hpub => ?_,fun r items' count' he => ?_,
    fun k hk => ?_,?_⟩
  · rw [hstay (by omega)]
    exact h.future k hk
  · rw [hpc] at hpub
    cases hpub
  · rw [hpc] at he
    cases he
    exact hitem'.trans hitem
  · rw [hstay (by omega)]
    exact h.past k hk
  · have hposted := h.posted
    simp only [Worker.unposted,hpc] at hposted ⊢
    cases heff with
    | quiet htk htr hd =>
      have hsame : (q'.pc (.worker i w.tries)).enqueued.isSome =
          (q.pc (.worker i w.tries)).enqueued.isSome := by
        rw [Bool.eq_iff_iff,hi'.enqueued_iff,hi.enqueued_iff,htk]
      rw [hsame]
      simpa only [postedBy,htk] using hposted
    | won data hdata htk htr =>
      obtain rfl : data = res := Option.some.inj (hdata.symm.trans hitem)
      have hafter : (q'.pc (.worker i w.tries)).enqueued.isSome :=
        hi'.enqueued_iff.mpr ⟨data,by simp [htk]⟩
      have hbefore : (q.pc (.worker i w.tries)).enqueued.isSome = false := by
        simpa [hi.mem_tickets_iff] using hi'.fresh_of_won htk
      rw [if_pos hafter,postedBy_won htk]
      simpa [hbefore,ResultCaller.by] using hposted
    | took hdeq hb haf htk htr =>
      rw [MpmcQueue.Pc.item_eq_none_of_dequeuing hdeq] at hitem
      cases hitem

theorem Posting.step {e : State κ} {inp : WorkerInput} {sh' : Shared κ}
    (h : Posting w e.shared.resultQueue i) (hr : Recorded w)
    (hi : MpmcQueue.Inv (1024*16) e.shared.resultQueue)
    (hs : WorkStep w e.shared i inp sh' w') : Posting w' sh'.resultQueue i := by
  have hstart : ∀ {w' : Worker}, w.pc.publishing = false → w'.pc.publishing = false →
      w'.tries = w.tries → w'.processed = w.processed → w'.pc.result = w.pc.result →
      Posting w' e.shared.resultQueue i := by
    intro w' hpub hpub' ht hp hres
    exact h.quiet hpub hpub' ht hp
      (by rw [Worker.unposted_eq_result hpub,Worker.unposted_eq_result hpub',hres])
  cases hs with
  | ask recheck pc running next =>
    exact hstart (by rw [pc]; cases recheck <;> rfl) rfl rfl rfl (by rw [pc]; cases recheck <;> rfl)
  | empty recheck pc ret =>
    exact hstart (by rw [pc]; rfl) (by cases recheck <;> rfl) rfl rfl
      (by rw [pc]; cases recheck <;> rfl)
  | taken recheck pc ret nonempty => exact hstart (by rw [pc]; rfl) rfl rfl rfl (by rw [pc]; rfl)
  | consume recheck pc ret next => exact hstart (by rw [pc]; rfl) rfl rfl rfl (by rw [pc])
  | again pc running => exact hstart (by rw [pc]; rfl) rfl rfl rfl (by rw [pc]; rfl)
  | busy pc | idle pc | addCount pc => exact hstart (by rw [pc]; rfl) rfl rfl rfl (by rw [pc]; rfl)
  | process pc step =>
    have hq : sh'.resultQueue = e.shared.resultQueue := by cases step <;> rfl
    rw [hq]
    exact h.process hr pc step
  | @flag req res items count pc =>
    obtain ⟨wal,hwal⟩ := w.journal_eq req res inp.systemNow
    obtain ⟨soldOut,hflag⟩ := e.shared.storeFlag_eq w req.skuId
    rw [hwal,hflag]
    exact hstart (by rw [pc]; rfl) rfl rfl rfl (by rw [pc]; rfl)
  | offer pc next => exact h.offer pc next
  | publish pc next => exact h.publish hi pc next
  | @published res data items count t pc ret =>
    have hposted := h.posted
    simp only [Worker.unposted,pc,ret,MpmcQueue.Pc.enqueued,Option.isSome_some,if_true] at hposted
    refine ⟨fun k hk => h.future k (Nat.lt_of_succ_lt hk),fun _ => h.future _ (Nat.lt_succ_self _),
      (fun _ _ _ he => by cases he),fun k hk => ?_,hposted⟩
    rcases Nat.lt_succ_iff_lt_or_eq.mp hk with hlt | rfl
    · exact h.past k hlt
    · exact ⟨_,_,ret⟩
  | @refused res data items count pc ret =>
    have hposted := h.posted
    simp only [Worker.unposted,pc,ret,MpmcQueue.Pc.enqueued,Option.isSome_none] at hposted
    refine ⟨fun k hk => h.future k (Nat.lt_of_succ_lt hk),fun _ => h.future _ (Nat.lt_succ_self _),
      (fun _ _ _ he => by cases he),fun k hk => ?_,hposted⟩
    rcases Nat.lt_succ_iff_lt_or_eq.mp hk with hlt | rfl
    · exact h.past k hlt
    · exact ⟨_,_,ret⟩

end Posting

section Reachable
variable {e e' : State κ} {a : Act κ}

theorem initEngine_results (sold enq deq barrier : UInt64) :
    Results (initEngine sold enq deq barrier : State κ) where
  inv := MpmcQueue.create_inv rfl
  takers := by rintro t c ⟨⟩
  pollers := by rintro c ⟨⟩
  posting _ := ⟨fun _ _ => rfl,fun _ => rfl,nofun,fun k hk => absurd hk (Nat.not_lt_zero k),.nil⟩
  unasked _ _ := rfl

variable [DecidableEq κ]

theorem State.next_worker (hn : e.next a = some e') (i : ShardId)
    (ha : ∀ inp, a ≠ .work i inp) :
    (e'.shards i).worker.pc = (e.shards i).worker.pc ∧
      (e'.shards i).worker.tries = (e.shards i).worker.tries ∧
      (e'.shards i).worker.processed = (e.shards i).worker.processed := by
  rcases State.next_shard hn i with hs | hs
  · rw [hs]
    exact ⟨rfl,rfl,rfl⟩
  · generalize e'.shards i = s' at hs
    cases hs with
    | work hw => exact absurd rfl (ha _)
    | _ => exact ⟨rfl,rfl,rfl⟩

theorem ResultStep.cases {q : ResultQueue κ} (h : ResultStep e a q) :
    ∃ b c, e.shared.resultQueue.next b = some q ∧
      (b = .dequeue c ∨ (∃ data, b = .enqueue c data) ∨ ∃ x, b = .step c x) ∧
      (∀ c', b = .dequeue c' → ∃ k, c' = .poller k) ∧
      (∀ i, (∀ inp, a ≠ .work i inp) → c.by i = false) ∧
      ∀ k, c = .poller k → e.calls k ≠ .idle ∨ ∃ f, a = .start k f := by
  cases h with
  | @offer i inp res items count q pc next =>
    refine ⟨_,_,next,.inr (.inl ⟨_,rfl⟩),nofun,fun j hj => ?_,nofun⟩
    simpa [ResultCaller.by] using fun h : i = j => hj inp (h ▸ rfl)
  | @publish i inp res items count q pc next =>
    refine ⟨_,_,next,.inr (.inr ⟨_,rfl⟩),nofun,fun j hj => ?_,nofun⟩
    simpa [ResultCaller.by] using fun h : i = j => hj inp (h ▸ rfl)
  | ask idle next =>
    refine ⟨_,_,next,.inl rfl,?_,fun _ _ => rfl,?_⟩
    · rintro c' ⟨⟩
      exact ⟨_,rfl⟩
    · rintro k ⟨⟩
      exact .inr ⟨_,rfl⟩
  | poll polling next =>
    refine ⟨_,_,next,.inr (.inr ⟨_,rfl⟩),nofun,fun _ _ => rfl,?_⟩
    rintro k ⟨⟩
    exact .inl (by simp [polling])

theorem State.idle_of_next {ok : Payload → Prop} (hc : Clients ok e) (ha : Admits ok e a)
    (hn : e.next a = some e') {c : κ} (he : e'.calls c = .idle) :
    e.calls c = .idle ∧ ∀ f, a ≠ .start c f := by
  refine ⟨State.next_idle hc ha hn he,?_⟩
  rintro f rfl
  exact (State.start_moves ha hn).2.2 he

theorem Results.next (h : Results e) (hr : ∀ i, Recorded (e.shards i).worker)
    (hc : Clients (fun _ => True) e) (hn : e.next a = some e') : Results e' := by
  have hposting : ∀ i, Posting (e'.shards i).worker e'.shared.resultQueue i := by
    intro i
    by_cases ha : ∃ inp, a = .work i inp
    · obtain ⟨inp,rfl⟩ := ha
      obtain ⟨⟨sh,w⟩,hw,rfl⟩ := Option.map_eq_some_iff.mp hn
      rw [State.setShard_shards_self]
      exact (h.posting i).step (hr i) h.inv (Worker.step_cases hw)
    · have hne : ∀ inp, a ≠ .work i inp := fun inp he => ha ⟨inp,he⟩
      obtain ⟨hpc,ht,hp⟩ := State.next_worker hn i hne
      rcases State.next_results hn with hq | hq
      · rw [hq]
        exact (h.posting i).frame hpc ht hp (fun _ => rfl) rfl
      · obtain ⟨b,c,hb,hcall,-,hby,-⟩ := hq.cases
        exact (h.posting i).other hpc ht hp (hby i hne) hcall hb
  have hidle : ∀ c, e'.calls c = .idle → e.calls c = .idle ∧ ∀ f, a ≠ .start c f :=
    fun c he => State.idle_of_next hc (fun _ _ => trivial) hn he
  rcases State.next_results hn with hq | hq
  · refine ⟨?_,?_,?_,hposting,fun c he => ?_⟩
    · rw [hq]; exact h.inv
    · rw [hq]; exact h.takers
    · rw [hq]; exact h.pollers
    · rw [hq]; exact h.unasked c (hidle c he).1
  · obtain ⟨b,c,hb,hcall,hdeq,-,hpoller⟩ := hq.cases
    refine ⟨h.inv.next trivial hb,h.takers.next h.inv hb,h.pollers.next hdeq hb,hposting,
      fun k he => ?_⟩
    obtain ⟨hk,hstart⟩ := hidle k he
    have hne : ResultCaller.poller k ≠ c := by
      rintro rfl
      rcases hpoller k rfl with hbusy | ⟨f,hf⟩
      · exact hbusy hk
      · exact hstart f hf
    have hpc : e'.shared.resultQueue.pc (.poller k) = e.shared.resultQueue.pc (.poller k) := by
      rcases hcall with rfl | ⟨data,rfl⟩ | ⟨x,rfl⟩
      · obtain ⟨-,he⟩ := MpmcQueue.State.call_eq hb
        rw [he,MpmcQueue.State.goto_pc_of_ne hne]
      · obtain ⟨-,he⟩ := MpmcQueue.State.call_eq hb
        rw [he,MpmcQueue.State.goto_pc_of_ne hne]
      · exact MpmcQueue.State.step_pc_of_ne hb hne
    rw [hpc]
    exact h.unasked k hk

theorem reachable_results (h : system.Reachable e) : Results e := by
  refine (h.invariant (I := fun e => Results e ∧ Clients (fun _ => True) e ∧
    ∀ i, Recorded (e.shards i).worker) ?_ ?_).1
  · rintro e ⟨_,_,_,_,rfl⟩
    exact ⟨initEngine_results _ _ _ _,initEngine_clients _ _ _ _,fun _ => startWorker_recorded⟩
  · intro e a e' ⟨hr,hc,hw⟩ hn
    refine ⟨hr.next hw hc hn,hc.next (fun _ _ => trivial) hn,fun i => ?_⟩
    rcases State.next_shard hn i with hs | hs
    · rw [hs]; exact hw i
    · exact hs.recorded (hw i)

end Reachable
end Flashsale.Engine
