import Flashsale.EndToEnd
import Flashsale.Tally
import Mathlib
set_option autoImplicit false

namespace Flashsale.Engine
open Transition
variable {κ : Type}

/-- The first `m` requests of call `c` that have a ticket, by their place in the array. -/
def taken (e : State κ) (c : κ) (m : Nat) : List Nat := (List.range m).filter fun k => Won e c k

theorem taken_length (e : State κ) (c : κ) (m : Nat) : (taken e c m).length = wins e c m :=
  (List.countP_eq_length_filter ..).symm

theorem mem_taken {e : State κ} {c : κ} {m k : Nat} : k ∈ taken e c m ↔ k < m ∧ Won e c k := by
  simp [taken]

theorem wins_eq_of_le {e : State κ} {c : κ} {m l : Nat} (h : ∀ k, Won e c k → k < m) (hl : m ≤ l) :
    wins e c l = wins e c m := by
  induction l, hl using Nat.le_induction with
  | base => rfl
  | succ l hl ih => rw [wins_succ,ih,if_neg fun hw => absurd (h l hw) (by omega),Nat.add_zero]

theorem filter_range_eq_iff {P : Nat → Prop} [DecidablePred P] {m : Nat} :
    (List.range m).filter P = List.range ((List.range m).filter P).length ↔
      ∀ j k, j < k → k < m → P k → P j := by
  constructor
  · intro heq j k hjk hkm hk
    have hmem : k ∈ (List.range m).filter P := by simp [hkm,hk]
    have hlt := List.mem_range.mp (heq ▸ hmem)
    have hj : j ∈ (List.range m).filter P := by
      rw [heq,List.mem_range]
      omega
    simpa using (List.mem_filter.mp hj).2
  · intro hdown
    induction m with
    | zero => rfl
    | succ m ih =>
      by_cases hm : P m
      · have hall : (List.range (m+1)).filter P = List.range (m+1) := by
          refine List.filter_eq_self.mpr fun j hj => ?_
          rcases Nat.lt_succ_iff_lt_or_eq.mp (List.mem_range.mp hj) with hlt | rfl
          · simpa using hdown j m hlt (Nat.lt_succ_self m) hm
          · simpa using hm
        rw [hall,List.length_range]
      · have hnone : (List.range (m+1)).filter P = (List.range m).filter P := by
          simp [List.range_succ,hm]
        rw [hnone]
        exact ih fun j k hjk hk => hdown j k hjk (by omega)

/-- Where a call of `EnqueueBatch` stands; it returns how many of its attempts won. -/
def Batched (e : State κ) (c : κ) : Call → Prop
  | .batchTestRunning _ => True
  | .enqueue p | .enqueuing p | .count p => p.purpose = .once
  | .ret n => ∃ m, Untouched e c m ∧ n = wins e c m
  | _ => False

theorem Batched.congr {e e' : State κ} {c : κ} {p : Call} (h : Batched e c p)
    (hpc : ∀ i k, (e'.shards i).queue.pc (.client .once c k) =
      (e.shards i).queue.pc (.client .once c k)) : Batched e' c p := by
  have hun : ∀ m, Untouched e' c m ↔ Untouched e c m := fun m => by simp only [Untouched,hpc]
  have hwins : ∀ m, wins e' c m = wins e c m := fun m => wins_congr fun i k _ => hpc i k
  cases p <;> simp_all [Batched]

section Batch
variable [DecidableEq κ] {e e' : State κ} {c : κ} {now : Int64} {spurious : Bool} {a : Act κ}

theorem ClientStep.batched (h : ClientStep e c now spurious e') (hb : Batched e c (e.calls c))
    (ht : Tally e c (e.calls c)) : Batched e' c (e'.calls c) := by
  have hset : ∀ {x : State κ} {p : Call}, x.shards = e.shards → Batched e c p →
      Batched (x.setCall c p) c ((x.setCall c p).calls c) := by
    intro x p hx hp
    rw [State.setCall_calls_self]
    exact hp.congr fun i k => by simp [State.setCall,hx]
  cases h with
  | batchTest pc =>
    rw [pc] at ht
    refine hset rfl ?_
    split
    · exact rfl
    · exact ⟨0,ht,wins_zero.symm⟩
  | finish pc todo =>
    rw [pc] at hb ht
    have hp : _ = Purpose.once := hb
    simp only [Tally,hp,if_true] at ht
    refine hset rfl ?_
    simp only [Push.done,hp]
    exact ⟨_,ht.2,ht.1⟩
  | attempt pc todo next =>
    rw [pc] at hb
    rw [State.setCall_calls_self]
    exact hb
  | access pc todo next =>
    change Batched _ c (e.calls c)
    rw [pc] at hb ⊢
    exact hb
  | accepted pc todo ret =>
    rw [pc] at hb
    refine hset rfl ?_
    split
    · exact hb
    · exact hb
  | full pc todo ret | count pc =>
    rw [pc] at hb
    exact hset rfl hb
  | _ => simp_all [Batched]

theorem State.start_batched {reqs : List Request} (hs : e.start c (.enqueueBatch reqs) = some e') :
    Batched e' c (e'.calls c) := by
  unfold State.start at hs
  split at hs
  · cases hs
    rw [State.setCall_calls_self]
    trivial
  · cases hs

theorem State.next_batched (hb : Batched e c (e.calls c)) (ht : Tally e c (e.calls c))
    (hn : e.next a = some e') : Batched e' c (e'.calls c) := by
  by_cases hown : ∃ now spurious, a = .client c now spurious
  · obtain ⟨now,spurious,rfl⟩ := hown
    exact (State.client_cases hn).batched hb ht
  have hframe := State.next_other_pc hn fun now spurious ha => hown ⟨now,spurious,ha⟩
  rcases State.next_calls hn c with he | ⟨f,-,hidle,-⟩ | ⟨now,spurious,ha,-⟩
  · rw [he]
    exact hb.congr fun i k => hframe i .once k
  · rw [hidle] at hb
    exact hb.elim
  · exact absurd ⟨now,spurious,ha⟩ hown

theorem run_batched {as : List (Act κ)} (h : system.Reachable e) (hb : Batched e c (e.calls c))
    (hr : system.Run e as e') : Batched e' c (e'.calls c) :=
  h.invariant_run (I := fun e => Batched e c (e.calls c))
    (fun _ _ _ hreach hb hn => State.next_batched hb (reachable_tally hreach c) hn) hr hb

structure EnqueuedOnce (e : State κ) (c : κ) (k : Nat) (r : Request) : Prop where
  present : ∃ req, (.client .once c k,req) ∈ (e.shards (shardIdx r.skuId)).queue.tickets ∧
    req.payload = r.payload
  only : ∀ (i j : ShardId) (t u : Nat) (req req' : Request),
    (e.shards i).queue.tickets[t]? = some (.client .once c k,req) →
    (e.shards j).queue.tickets[u]? = some (.client .once c k,req') → i = j ∧ t = u

theorem Sourced.ticket {B : κ → List Payload} {reqs : List Request} {i : ShardId} {k t : Nat}
    {req : Request} (h : Sourced B e) (hreach : system.Reachable e) (hB : B c = payloads reqs)
    (ht : (e.shards i).queue.tickets[t]? = some (.client .once c k,req)) :
    ∃ r, reqs[k]? = some r ∧ req.payload = r.payload ∧ i = shardIdx r.skuId := by
  have hcarry := (reachable_fifo hreach i).ingress.tickets_carry (h.queues i) ht c k rfl
  rw [hB,payloads,List.getElem?_map,Option.map_eq_some_iff] at hcarry
  obtain ⟨r,hr,hp⟩ := hcarry
  refine ⟨r,hr,hp.symm,?_⟩
  rw [← shard_of_ticket hreach ht,show req.skuId = r.skuId from congrArg Prod.fst hp.symm]

theorem Sourced.enqueued_once {B : κ → List Payload} {reqs : List Request} {k : Nat}
    (h : Sourced B e) (hreach : system.Reachable e) (hB : B c = payloads reqs) (hw : Won e c k) :
    ∃ r, reqs[k]? = some r ∧ EnqueuedOnce e c k r := by
  obtain ⟨i,req,hmem⟩ := (Fifo.won_iff fun i => reachable_fifo hreach i).mp hw
  obtain ⟨t,ht⟩ := List.mem_iff_getElem?.mp hmem
  obtain ⟨r,hr,hp,rfl⟩ := h.ticket hreach hB ht
  refine ⟨r,hr,⟨req,hmem,hp⟩,fun i j t u req req' hi hj => ?_⟩
  have hshard : ∀ {i : ShardId} {t : Nat} {req : Request},
      (e.shards i).queue.tickets[t]? = some (.client .once c k,req) → i = shardIdx r.skuId := by
    intro i t req hi
    obtain ⟨r',hr',-,he⟩ := h.ticket hreach hB hi
    rw [he,Option.some.inj (hr.symm.trans hr')]
  obtain rfl : i = j := (hshard hi).trans (hshard hj).symm
  exact ⟨rfl,(reachable_fifo hreach i).ingress.ticket_unique hi hj⟩

/-- `EnqueueBatch` returns how many of the requests it enqueued, each once and in the
queue of its shard; they are the first ones of the array exactly where it enqueued
none after one that it could not. -/
theorem batch_counts {e₀ e₁ : State κ} {as : List (Act κ)} {reqs : List Request} {n : Nat}
    (h : system.Reachable e₀) (hs : system.next e₀ (.start c (.enqueueBatch reqs)) = some e₁)
    (hr : system.Run e₁ as e) (hret : e.calls c = .ret n) :
    (taken e c reqs.length).length = n ∧
    (∀ k ∈ taken e c reqs.length, ∃ r, reqs[k]? = some r ∧ EnqueuedOnce e c k r) ∧
    (∀ i k req, (.client .once c k,req) ∈ (e.shards i).queue.tickets → k ∈ taken e c reqs.length) ∧
    (taken e c reqs.length = List.range n ↔
      ∀ j k, j < k → k ∈ taken e c reqs.length → j ∈ taken e c reqs.length) := by
  obtain ⟨s₀,bs,hi,hb⟩ := h
  have hreach₁ := System.Reachable.step ⟨s₀,bs,hi,hb⟩ hs
  have hreach := hreach₁.run hr
  obtain ⟨_,_,_,_,rfl⟩ := hi
  have hall := (hb.append (.single hs)).append hr
  have hsrc := run_sourced hall hall (List.Subset.refl _)
  have hB : brought (bs ++ [.start c (.enqueueBatch reqs)] ++ as) c = payloads reqs :=
    brought_eq (f := .enqueueBatch reqs) hall (initEngine_clients _ _ _ _) (by simp)
  have hlt : ∀ {k}, Won e c k → k < reqs.length := fun hw => by
    have := hsrc.of_won hw
    rwa [hB,payloads_length] at this
  have hmem : ∀ k, k ∈ taken e c reqs.length ↔ Won e c k := fun k =>
    mem_taken.trans ⟨fun h => h.2,fun h => ⟨hlt h,h⟩⟩
  have hlen : (taken e c reqs.length).length = n := by
    have hbat := run_batched hreach₁ (State.start_batched hs) hr
    rw [hret] at hbat
    obtain ⟨m,hun,rfl⟩ := hbat
    rw [taken_length]
    rcases Nat.le_total m reqs.length with hle | hle
    · exact wins_eq_of_le (fun k hw => Nat.lt_of_not_le fun hk => hun.not_won hk hw) hle
    · exact (wins_eq_of_le (fun _ => hlt) hle).symm
  refine ⟨hlen,fun k hk => hsrc.enqueued_once hreach hB ((hmem k).mp hk),fun i k req ht => ?_,?_⟩
  · exact (hmem k).mpr ((Fifo.won_iff fun i => reachable_fifo hreach i).mpr ⟨i,req,ht⟩)
  · have hfirst := filter_range_eq_iff (P := Won e c) (m := reqs.length)
    change taken e c reqs.length = List.range (taken e c reqs.length).length ↔ _ at hfirst
    rw [hlen] at hfirst
    rw [hfirst]
    simp only [hmem]
    exact ⟨fun h j k hjk hk => h j k hjk (hlt hk) hk,fun h j k hjk _ => h j k hjk⟩

end Batch

def pairBatch : List Request := [saleRequest 5,{ saleRequest 6 with skuId := 456 }]

def pairStart : State Nat :=
  ((initEngine 0 0 0 0).start 0 (.enqueueBatch pairBatch)).get (by decide +kernel)

def pairState : State Nat :=
  (system.exec pairStart (List.replicate 18 (.client 0 1 false))).get (by decide +kernel)

theorem batch_counts_pair :
    pairState.calls 0 = .ret 2 ∧ taken pairState 0 2 = List.range 2 :=
  have hinit : system.Reachable (initEngine 0 0 0 0 : State Nat) := .of_init ⟨0,0,0,0,rfl⟩
  have hret : pairState.calls 0 = .ret 2 := by decide +kernel
  have htaken : taken pairState 0 2 = [0,1] := by decide +kernel
  ⟨hret,(batch_counts hinit (Option.some_get _).symm
    (Transition.System.run_of_exec (Option.some_get _).symm) hret).2.2.2.mpr (by
      intro j k hjk hk
      have hk : k ∈ taken pairState 0 2 := hk
      change j ∈ taken pairState 0 2
      rw [htaken] at hk ⊢
      simp at hk ⊢
      omega)⟩

def State.setQueue (e : State κ) (i : ShardId) (q : MpmcQueue.State Nat Request (Caller κ)) :
    State κ := e.setShard i { e.shards i with queue := q }

theorem State.setQueue_queue (e : State κ) (i : ShardId)
    (q : MpmcQueue.State Nat Request (Caller κ)) : ((e.setQueue i q).shards i).queue = q := by
  simp [State.setQueue]

theorem State.setQueue_setQueue (e : State κ) (i : ShardId)
    (q q' : MpmcQueue.State Nat Request (Caller κ)) :
    (e.setQueue i q).setQueue i q' = e.setQueue i q' := by
  simp [State.setQueue,State.setShard]

structure Filled (q : MpmcQueue.State Nat Request (Caller κ)) (m : Nat) : Prop where
  mask : q.mask = 4095
  enqueuePos : q.enqueuePos = m
  sequence : ∀ j, j < 4096 → (q.buffer j).sequence = if j < m then j + 1 else j

section Filling
variable [DecidableEq κ] {e : State κ} {c : κ} {p : Push} {i : ShardId} {req : Request}
  {rest : List (ShardId × Request)} {q : MpmcQueue.State Nat Request (Caller κ)} {m : Nat}

omit [DecidableEq κ] in
theorem Filled.slot (h : Filled q m) (pos : Nat) : q.slot pos = pos % 4096 := by
  have hmask : SizeT.val q.mask + 1 = 2^12 := by rw [h.mask]; rfl
  exact SizeT.val_and_mask hmask

theorem goto_goto (q : MpmcQueue.State Nat Request (Caller κ)) (c : Caller κ)
    (p p' : MpmcQueue.Pc Nat Request) : (q.goto c p).goto c p' = q.goto c p' := by
  simp [MpmcQueue.State.goto]

theorem Filled.enqueue (x : Caller κ) (req : Request) (h : Filled q m) (hm : m < 4096) :
    ∃ q', (MpmcQueue.system 4096).exec (q.goto x (.enqLoadPos req)) (List.replicate 5 (.step x false))
      = some q' ∧ Filled q' (m+1) ∧ q'.pc = Function.update q.pc x (.enqReturn req (some m)) := by
  have hpos := h.enqueuePos
  have hslot : q.slot m = m := by rw [h.slot,Nat.mod_eq_of_lt hm]
  have hseq : (q.buffer m).sequence = m := by rw [h.sequence m hm,if_neg (Nat.lt_irrefl m)]
  have hload : (q.goto x (.enqLoadPos req)).step x false = some (q.goto x (.enqLoadSeq req m)) := by
    simp only [MpmcQueue.State.step,MpmcQueue.State.goto_pc_self,goto_goto]
    rw [← hpos]
    rfl
  have htest : (q.goto x (.enqLoadSeq req m)).step x false = some (q.goto x (.enqCas req m)) := by
    have hdif : SizeT.dif ((q.goto x (.enqLoadSeq req m)).buffer
        ((q.goto x (.enqLoadSeq req m)).slot m)).sequence m = 0 := by
      change SizeT.dif (q.buffer (q.slot m)).sequence m = 0
      rw [hslot,hseq]
      exact SizeT.dif_eq_zero.mpr rfl
    simp only [MpmcQueue.State.step,MpmcQueue.State.goto_pc_self,goto_goto,hdif,if_true]
  have hcas : (q.goto x (.enqCas req m)).step x false =
      some ((q.winEnqueue x req m).goto x (.enqWrite req m)) := by
    have hwin : (q.goto x (.enqCas req m)).enqueuePos = m := hpos
    simp only [MpmcQueue.State.step,MpmcQueue.State.goto_pc_self,hwin,true_and,if_true]
    exact congrArg some (goto_goto (q.winEnqueue x req m) x _ _)
  have hwrite : ((q.winEnqueue x req m).goto x (.enqWrite req m)).step x false =
      some (((q.winEnqueue x req m).writeData m req).goto x (.enqStoreSeq req m)) := by
    simp only [MpmcQueue.State.step,MpmcQueue.State.goto_pc_self]
    exact congrArg some (goto_goto ((q.winEnqueue x req m).writeData m req) x _ _)
  have hstore : (((q.winEnqueue x req m).writeData m req).goto x (.enqStoreSeq req m)).step x false =
      some ((((q.winEnqueue x req m).writeData m req).storeSeq m (m+1)).goto x
        (.enqReturn req (some m))) := by
    simp only [MpmcQueue.State.step,MpmcQueue.State.goto_pc_self]
    exact congrArg some (goto_goto (((q.winEnqueue x req m).writeData m req).storeSeq m (m+1)) x _ _)
  refine ⟨(((q.winEnqueue x req m).writeData m req).storeSeq m (m+1)).goto x (.enqReturn req (some m)),
    ?_,⟨h.mask,rfl,fun j hj => ?_⟩,rfl⟩
  · simp only [List.replicate,System.exec,MpmcQueue.system,MpmcQueue.State.next,hload,htest,hcas,
      hwrite,hstore,Option.bind_some]
  · have hwritten : ((q.winEnqueue x req m).writeData m req).slot m = m := hslot
    have hwon : (q.winEnqueue x req m).slot m = m := hslot
    change (((((q.winEnqueue x req m).writeData m req).storeSeq m (m+1))).buffer j).sequence = _
    simp only [MpmcQueue.State.storeSeq,hwritten]
    by_cases hjm : j = m
    · simp [hjm]
    · have hold := h.sequence j hj
      simp only [Function.update_of_ne hjm,MpmcQueue.State.writeData,hwon]
      rw [show (q.winEnqueue x req m).buffer = q.buffer from rfl,hold]
      split <;> split <;> omega

theorem Filled.refuse (x : Caller κ) (req : Request) (h : Filled q 4096) :
    (MpmcQueue.system 4096).exec (q.goto x (.enqLoadPos req)) (List.replicate 2 (.step x false))
      = some (q.goto x (.enqReturn req none)) := by
  have hload : (q.goto x (.enqLoadPos req)).step x false = some (q.goto x (.enqLoadSeq req 4096)) := by
    simp only [MpmcQueue.State.step,MpmcQueue.State.goto_pc_self,goto_goto]
    rw [← h.enqueuePos]
    rfl
  have htest : (q.goto x (.enqLoadSeq req 4096)).step x false = some (q.goto x (.enqReturn req none)) := by
    have hdif : SizeT.dif ((q.goto x (.enqLoadSeq req 4096)).buffer
        ((q.goto x (.enqLoadSeq req 4096)).slot 4096)).sequence 4096 = -4095 := by
      change SizeT.dif (q.buffer (q.slot 4096)).sequence 4096 = -4095
      rw [h.slot,h.sequence _ (by decide)]
      rfl
    have hne : ¬ (-4095 : Int) = 0 := by decide
    have hneg : (-4095 : Int) < 0 := by decide
    simp only [MpmcQueue.State.step,MpmcQueue.State.goto_pc_self,goto_goto,hdif,hne,hneg,if_true,
      if_false]
  simp only [List.replicate,System.exec,MpmcQueue.system,MpmcQueue.State.next,hload,htest,
    Option.bind_some]

theorem access_run {q : MpmcQueue.State Nat Request (Caller κ)} {n : Nat}
    (hpc : e.calls c = .enqueuing p) (htodo : p.todo = (i,req) :: rest)
    (h : (MpmcQueue.system 4096).exec (e.shards i).queue (List.replicate n (.step (p.caller c) false))
      = some q) :
    system.exec e (List.replicate n (.client c 0 false)) = some (e.setQueue i q) := by
  induction n generalizing e with
  | zero =>
    cases h
    simp [System.exec,State.setQueue,State.setShard]
  | succ n ih =>
    obtain ⟨q',hn,hr⟩ := Option.bind_eq_some_iff.mp h
    have hstep : system.next e (.client c 0 false) = some (e.setQueue i q') := by
      have hq : (e.shards i).queue.step (p.caller c) false = some q' := hn
      simp only [system,State.next,State.client,hpc,htodo]
      split
      · rename_i hret
        simp [MpmcQueue.State.step,hret] at hq
      · rename_i hret
        simp [MpmcQueue.State.step,hret] at hq
      · change ((e.shards i).queue.step (p.caller c) false).map _ = _
        rw [hq]
        rfl
    rw [List.replicate_succ,System.exec,hstep,Option.bind_some,← e.setQueue_setQueue i q' q]
    refine ih hpc ?_
    rw [State.setQueue_queue]
    exact hr

theorem State.setCall_setCall (e : State κ) (c : κ) (p p' : Call) :
    (e.setCall c p).setCall c p' = e.setCall c p' := by simp [State.setCall]

theorem attempt_run {q : MpmcQueue.State Nat Request (Caller κ)} {n : Nat}
    (hpc : e.calls c = .enqueue p) (htodo : p.todo = (i,req) :: rest)
    (hidle : (e.shards i).queue.pc (p.caller c) = .idle)
    (h : (MpmcQueue.system 4096).exec ((e.shards i).queue.goto (p.caller c) (.enqLoadPos (p.stamp req 0)))
      (List.replicate n (.step (p.caller c) false)) = some q) :
    system.Run e (List.replicate (n+1) (.client c 0 false))
      ((e.setQueue i q).setCall c (.enqueuing p)) := by
  have hbegin : system.next e (.client c 0 false) =
      some ((e.setQueue i ((e.shards i).queue.goto (p.caller c) (.enqLoadPos (p.stamp req 0)))).setCall c
        (.enqueuing p)) := by
    simp only [system,State.next,State.client,hpc,htodo,MpmcQueue.State.next,MpmcQueue.State.call,
      hidle]
    rfl
  refine .cons hbegin (System.run_of_exec ?_)
  have hrun := access_run (q := q) (n := n)
    (e := (e.setQueue i ((e.shards i).queue.goto (p.caller c) (.enqLoadPos (p.stamp req 0)))).setCall c
      (.enqueuing p)) (State.setCall_calls_self ..) htodo (by
        change (MpmcQueue.system 4096).exec ((e.setQueue i _).shards i).queue _ = _
        rw [State.setQueue_queue]
        exact h)
  rw [hrun]
  exact congrArg (fun e : State κ => some (e.setCall c (.enqueuing p))) (e.setQueue_setQueue i _ q)

theorem attempt_wins (hpc : e.calls c = .enqueue p) (htodo : p.todo = (i,req) :: rest)
    (hp : p.purpose = .once) (hidle : (e.shards i).queue.pc (p.caller c) = .idle)
    (hq : Filled (e.shards i).queue m) (hm : m < 4096) :
    ∃ e', system.Run e (List.replicate 8 (.client c 0 false)) e' ∧
      e'.calls c = .enqueue (p.after true) ∧ e'.running = e.running ∧
      Filled (e'.shards i).queue (m+1) ∧
      (e'.shards i).queue.pc =
        Function.update (e.shards i).queue.pc (p.caller c) (.enqReturn (p.stamp req 0) (some m)) ∧
      ∀ j, j ≠ i → e'.shards j = e.shards j := by
  obtain ⟨q,hexec,hfilled,hret⟩ := hq.enqueue (p.caller c) (p.stamp req 0) hm
  have hrun := attempt_run hpc htodo hidle hexec
  have hpc' : q.pc (p.caller c) = .enqReturn (p.stamp req 0) (some m) := by rw [hret,Function.update_self]
  have haccept : system.next ((e.setQueue i q).setCall c (.enqueuing p)) (.client c 0 false) =
      some ((e.setQueue i q).setCall c (.count p)) := by
    have hshard : (((e.setQueue i q).setCall c (.enqueuing p)).shards i).queue = q :=
      State.setQueue_queue e i q
    simp only [system,State.next,State.client,State.setCall_calls_self,htodo,hshard,hpc',hp,if_true,
      State.setCall_setCall]
  have hcount : system.next ((e.setQueue i q).setCall c (.count p)) (.client c 0 false) =
      some ({ e.setQueue i q with enqueueCount := e.enqueueCount + 1 }.setCall c
        (.enqueue (p.after true))) := by
    simp only [system,State.next,State.client,State.setCall_calls_self]
    exact congrArg some (State.setCall_setCall { e.setQueue i q with enqueueCount := e.enqueueCount + 1 }
      c _ _)
  refine ⟨_,hrun.append (.cons haccept (.single hcount)),State.setCall_calls_self ..,rfl,?_,?_,?_⟩
  · change Filled ((e.setQueue i q).shards i).queue _
    rw [State.setQueue_queue]
    exact hfilled
  · change ((e.setQueue i q).shards i).queue.pc = _
    rw [State.setQueue_queue]
    exact hret
  · exact fun j hj => State.setShard_shards_of_ne hj

theorem attempt_refused (hpc : e.calls c = .enqueue p) (htodo : p.todo = (i,req) :: rest)
    (hidle : (e.shards i).queue.pc (p.caller c) = .idle) (hq : Filled (e.shards i).queue 4096) :
    ∃ e', system.Run e (List.replicate 4 (.client c 0 false)) e' ∧
      e'.calls c = .enqueue (p.after false) ∧ e'.running = e.running ∧
      (e'.shards i).queue.pc =
        Function.update (e.shards i).queue.pc (p.caller c) (.enqReturn (p.stamp req 0) none) ∧
      ∀ j, j ≠ i → e'.shards j = e.shards j := by
  have hrun := attempt_run hpc htodo hidle (hq.refuse (p.caller c) (p.stamp req 0))
  generalize hret : (e.shards i).queue.goto (p.caller c) (.enqReturn (p.stamp req 0) none) = q at hrun
  have hfull : system.next ((e.setQueue i q).setCall c (.enqueuing p)) (.client c 0 false) =
      some ((e.setQueue i q).setCall c (.enqueue (p.after false))) := by
    have hshard : (((e.setQueue i q).setCall c (.enqueuing p)).shards i).queue = q :=
      State.setQueue_queue e i q
    have hpc' : q.pc (p.caller c) = .enqReturn (p.stamp req 0) none := by
      rw [← hret]
      exact MpmcQueue.State.goto_pc_self ..
    simp only [system,State.next,State.client,State.setCall_calls_self,htodo,hshard,hpc',
      State.setCall_setCall]
  refine ⟨_,hrun.append (.single hfull),State.setCall_calls_self ..,rfl,?_,?_⟩
  · change ((e.setQueue i q).shards i).queue.pc = _
    rw [State.setQueue_queue,← hret]
    rfl
  · exact fun j hj => State.setShard_shards_of_ne hj

theorem fill {k : Nat} (hpc : e.calls c = .enqueue p)
    (htodo : p.todo = List.replicate k (i,req) ++ rest) (hp : p.purpose = .once)
    (hidle : ∀ l, p.tries ≤ l → (e.shards i).queue.pc (.client .once c l) = .idle)
    (hq : Filled (e.shards i).queue m) (hm : m + k ≤ 4096) :
    ∃ as e' p', system.Run e as e' ∧ e'.calls c = .enqueue p' ∧ p'.todo = rest ∧
      p'.purpose = .once ∧ p'.tries = p.tries + k ∧ p'.enqueued = p.enqueued + k ∧
      e'.running = e.running ∧ Filled (e'.shards i).queue (m+k) ∧
      (∀ l, p'.tries ≤ l → (e'.shards i).queue.pc (.client .once c l) = .idle) ∧
      ∀ j, j ≠ i → e'.shards j = e.shards j := by
  induction k generalizing e p m with
  | zero => exact ⟨[],e,p,.nil e,hpc,htodo,hp,rfl,rfl,rfl,hq,hidle,fun _ _ => rfl⟩
  | succ k ih =>
    have hcaller : p.caller c = .client .once c p.tries := by rw [Push.caller,hp]
    have htodo' : p.todo = (i,req) :: (List.replicate k (i,req) ++ rest) := by
      rw [htodo,List.replicate_succ,List.cons_append]
    obtain ⟨e',hr,hpc',hrun',hq',hret,hother⟩ := attempt_wins hpc htodo' hp
      (by rw [hcaller]; exact hidle _ (Nat.le_refl _)) hq (by omega)
    have htail : (p.after true).todo = List.replicate k (i,req) ++ rest := by
      simp [Push.after,hp,htodo']
    obtain ⟨as,e'',p',hr',hpc'',ht,hp',htries,henq,hrun'',hq'',hidle',hother'⟩ :=
      ih (p := p.after true) hpc' htail hp (by
        intro l hl
        have hl' : p.tries + 1 ≤ l := hl
        rw [hret,hcaller,Function.update_of_ne (by simp; omega)]
        exact hidle l (by omega)) hq' (by omega)
    refine ⟨_,e'',p',hr.append hr',hpc'',ht,hp',?_,?_,hrun''.trans hrun',?_,hidle',
      fun j hj => (hother' j hj).trans (hother j hj)⟩
    · rw [htries]
      change p.tries + 1 + k = _
      omega
    · rw [henq]
      change p.enqueued + 1 + k = _
      omega
    · rw [show m + (k+1) = m + 1 + k by omega]
      exact hq''

end Filling

def coldRequest : Request := { saleRequest 5 with skuId := 456 }

/-- More requests than the queue of shard 0 has cells, and one for shard 1. -/
def skippingBatch : List Request := List.replicate 4097 coldRequest ++ [saleRequest 6]

/-- Request 4096 finds its queue full, and request 4097 is enqueued all the same: the
number returned is 4097, and the first 4097 are not those enqueued. -/
theorem batch_skips : ∃ (e₁ e : State Unit) (as : List (Act Unit)),
    system.next (initEngine 0 0 0 0) (.start () (.enqueueBatch skippingBatch)) = some e₁ ∧
      system.Run e₁ as e ∧ e.running = true ∧ e.calls () = .ret 4097 ∧
      ¬ ∀ k, Won e () k ↔ k < 4097 := by
  let e₁ : State Unit := (initEngine 0 0 0 0).setCall () (.batchTestRunning skippingBatch)
  let p : Push := ⟨.once,skippingBatch.map (·.routed),0,0⟩
  have htest : system.next e₁ (.client () 0 false) = some (e₁.setCall () (.enqueue p)) := rfl
  have hempty : Filled (startShard : Shard Unit).queue 0 := ⟨rfl,rfl,fun j _ => rfl⟩
  have htodo : p.todo = List.replicate 4096 (0,coldRequest) ++
      [(0,coldRequest),(1,saleRequest 6)] := by
    simp only [p,skippingBatch,List.map_append,List.map_replicate,List.map_cons,List.map_nil]
    rw [show 4097 = 4096 + 1 from rfl,List.replicate_succ',List.append_assoc]
    rfl
  -- The first 4096 requests fill the queue of shard 0.
  obtain ⟨as,e₂,p₂,hr₂,hpc₂,htodo₂,hp₂,htries₂,henq₂,hrun₂,hq₂,hidle₂,hother₂⟩ :=
    fill (e := e₁.setCall () (.enqueue p)) (c := ()) (i := 0) (m := 0) (k := 4096)
      (State.setCall_calls_self ..) htodo rfl (fun _ _ => rfl) hempty (by decide)
  have htries₂ : p₂.tries = 4096 := htries₂.trans (Nat.zero_add _)
  have henq₂ : p₂.enqueued = 4096 := henq₂.trans (Nat.zero_add _)
  have hcaller₂ : p₂.caller () = .client .once () 4096 := by rw [Push.caller,hp₂,htries₂]
  obtain ⟨e₃,hr₃,hpc₃,hrun₃,hret₃,hother₃⟩ := attempt_refused hpc₂ htodo₂
    (by rw [hcaller₂]; exact hidle₂ 4096 (by omega)) hq₂
  have hshard : e₃.shards 1 = startShard :=
    (hother₃ 1 (by decide)).trans (hother₂ 1 (by decide))
  have htodo₃ : (p₂.after false).todo = [(1,saleRequest 6)] := by simp [Push.after,hp₂,htodo₂]
  have hcaller₃ : (p₂.after false).caller () = .client .once () 4097 := by
    simp [Push.after,Push.caller,hp₂,htries₂]
  obtain ⟨e₄,hr₄,hpc₄,hrun₄,-,hret₄,hother₄⟩ := attempt_wins (m := 0) hpc₃ htodo₃ hp₂
    (by rw [hshard]; rfl) (by rw [hshard]; exact hempty) (by decide)
  have hfinish : system.next e₄ (.client () 0 false) = some (e₄.setCall () (.ret 4097)) := by
    have htodo₄ : ((p₂.after false).after true).todo = [] := by simp [Push.after,hp₂,htodo₂]
    have hdone : ((p₂.after false).after true).done = .ret 4097 := by
      simp [Push.done,Push.after,hp₂,henq₂]
    simp only [system,State.next,State.client,hpc₄,htodo₄,hdone]
  refine ⟨e₁,_,_,rfl,.cons htest (((hr₂.append hr₃).append hr₄).append (.single hfinish)),
    hrun₄.trans (hrun₃.trans hrun₂),State.setCall_calls_self ..,fun hfirst => ?_⟩
  obtain ⟨i,hi⟩ := (hfirst 4096).mpr (by decide)
  have hpc : ((e₄.setCall () (.ret 4097)).shards i).queue.pc = (e₄.shards i).queue.pc := rfl
  rw [hpc] at hi
  fin_cases i
  · change ((e₄.shards 0).queue.pc _).enqueued.isSome = true at hi
    rw [hother₄ 0 (by decide),hret₃,hcaller₂,Function.update_self] at hi
    simp [MpmcQueue.Pc.enqueued] at hi
  · change ((e₄.shards 1).queue.pc _).enqueued.isSome = true at hi
    rw [hret₄,hcaller₃,Function.update_of_ne (by simp),hshard] at hi
    exact absurd hi (by decide)

end Flashsale.Engine
