import Flashsale.ResultQueue
set_option autoImplicit false

namespace Flashsale.Engine
open Transition Transducer
variable {κ : Type}

/-- The results of the requests `rs`, which worker `i` posted first, are in the
queue or polled from it. -/
def Reported (q : ResultQueue κ) (i : ShardId) (rs : List Payload) : Prop :=
  ∃ l, l <+: q.tickets.filter (·.1.by i) ∧ List.Forall₂ Verdict.Of (verdicts rs) (l.map (·.2)) ∧
    ∀ x ∈ l, ∃ t, q.pc x.1 = .enqReturn x.2 (some t)

def Latest (w : Worker) : Prop :=
  w.pc.result.isSome → ∃ rs r v, payloads w.processed = rs ++ [r] ∧
    verdicts (rs ++ [r]) = verdicts rs ++ [v]

/-- A worker's later attempts won the later tickets. -/
def Ordered (q : ResultQueue κ) (i : ShardId) : Prop :=
  q.tickets.Pairwise fun x y => ∀ k k', x.1 = .worker i k → y.1 = .worker i k' → k < k'

section Steps
variable {w w' : Worker} {sh sh' : Shared κ} {i : ShardId} {inp : WorkerInput}

theorem Latest.process {req : Request} {items : List Request} {count : Nat}
    {uninit : CSeckillResult} (hr : Recorded w)
    (hs : ProcessStep w sh req items count uninit sh' w') : Latest w' := by
  intro hsome
  obtain ⟨hp,-,-,hrel⟩ := hs.ledger
  cases hv : (w.ledger.process req.payload).2 with
  | none =>
    rw [hv] at hrel
    cases hres : w'.pc.result <;> simp_all
  | some v =>
    refine ⟨payloads w.processed,req.payload,v,by rw [hp]; simp [payloads],?_⟩
    rw [verdicts_concat,← hr.ledger,hv]
    rfl

variable [DecidableEq κ]

theorem Latest.step (h : Latest w) (hr : Recorded w) (hs : WorkStep w sh i inp sh' w') :
    Latest w' := by
  have hkeep : ∀ {w' : Worker}, w'.processed = w.processed →
      (w'.pc.result.isSome → w.pc.result.isSome) → Latest w' := by
    intro w' hp hres hsome
    rw [hp]
    exact h (hres hsome)
  cases hs with
  | process pc step => exact .process hr step
  | @flag req res items count pc =>
    obtain ⟨wal,hwal⟩ := w.journal_eq req res inp.systemNow
    rw [hwal]
    exact hkeep rfl (by simp [pc,Loop.result])
  | empty recheck pc ret => exact hkeep rfl (by cases recheck <;> simp [Loop.result])
  | publish pc next => exact hkeep rfl id
  | offer pc next | refused pc ret => exact hkeep rfl (by simp [pc,Loop.result])
  | _ => exact hkeep rfl (by simp [Loop.result])

end Steps

section Order
variable {q q' : ResultQueue κ} {i : ShardId} {w : Worker}

theorem Ordered.won {c : ResultCaller κ} {data : CSeckillResult} (h : Ordered q i)
    (ht : q'.tickets = q.tickets ++ [(c,data)])
    (hlast : ∀ k k' x, c = .worker i k' → (.worker i k,x) ∈ q.tickets → k < k') : Ordered q' i := by
  rw [Ordered,ht,List.pairwise_append]
  refine ⟨h,List.pairwise_singleton _ _,?_⟩
  rintro ⟨c₁,x⟩ hx y hy k k' hk hk'
  rw [List.mem_singleton] at hy
  subst hy
  obtain rfl : c₁ = .worker i k := hk
  exact hlast k k' x hk' hx

theorem Posting.begun (h : Posting w q i) (hi : MpmcQueue.Inv (1024*16) q) {k : Nat}
    {x : CSeckillResult} (hm : (.worker i k,x) ∈ q.tickets) : k ≤ w.tries := by
  by_contra hlt
  have hin : .worker i k ∈ q.tickets.map Prod.fst := List.mem_map.mpr ⟨_,hm,rfl⟩
  rw [hi.mem_tickets_iff,h.future k (by omega)] at hin
  simp [MpmcQueue.Pc.enqueued] at hin

variable [DecidableEq κ] {e e' : State κ} {a : Act κ}

theorem Ordered.next (h : Ordered e.shared.resultQueue i) (hr : Results e)
    (hn : e.next a = some e') : Ordered e'.shared.resultQueue i := by
  rcases State.next_results hn with hq | hq
  · rw [hq]; exact h
  · have hsame : ∀ {q : ResultQueue κ}, q.tickets = e.shared.resultQueue.tickets → Ordered q i := by
      intro q ht
      rw [Ordered,ht]
      exact h
    generalize e'.shared.resultQueue = q at hq
    cases hq with
    | offer pc next | ask idle next =>
      obtain ⟨-,rfl⟩ := MpmcQueue.State.call_eq next
      exact hsame rfl
    | poll polling next =>
      cases (MpmcQueue.State.step_effect next).2.2 with
      | quiet ht _ _ => exact hsame ht
      | took _ _ _ ht _ => exact hsame ht
      | won data hi ht _ => exact h.won ht nofun
    | @publish j inp res items count q pc next =>
      have hi : MpmcQueue.Inv (1024*16) q := hr.inv.next trivial next
      cases (MpmcQueue.State.step_effect next).2.2 with
      | quiet ht _ _ => exact hsame ht
      | took _ _ _ ht _ => exact hsame ht
      | won data _ ht _ =>
        refine h.won ht fun k k' x hk' hm => ?_
        obtain ⟨rfl,rfl⟩ : j = i ∧ (e.shards j).worker.tries = k' := by simpa using hk'
        have hle := (hr.posting j).begun hr.inv hm
        have hne : k ≠ (e.shards j).worker.tries := by
          rintro rfl
          exact hi.fresh_of_won ht (List.mem_map.mpr ⟨_,hm,rfl⟩)
        omega

end Order

section Reported
variable {q : ResultQueue κ} {i : ShardId} {w : Worker} {rs more : List Payload} {r : Payload}

theorem verdicts_isPrefix {rs rs' : List Payload} (h : rs <+: rs') : verdicts rs <+: verdicts rs' :=
  (outputs_isPrefix _ _ h).filterMap _

theorem Latest.length_lt (h : Latest w) (hp : payloads w.processed = rs ++ r :: more)
    (hsome : w.pc.result.isSome) :
    (verdicts rs).length < (verdicts (payloads w.processed)).length := by
  obtain ⟨rs',r',v,hp',hv⟩ := h hsome
  have hpre : rs <+: rs' := by
    have hrs : rs <+: rs' ++ [r'] := by
      rw [← hp',hp]
      exact List.prefix_append _ _
    refine List.prefix_of_prefix_length_le hrs (List.prefix_append _ _) ?_
    have := congrArg List.length (hp.symm.trans hp')
    simp only [List.length_append,List.length_cons,List.length_nil] at this
    omega
  have := (verdicts_isPrefix hpre).length_le
  rw [hp',hv,List.length_append,List.length_singleton]
  omega

theorem Worker.result_of_unposted (h : (w.unposted q i).isSome) : w.pc.result.isSome := by
  unfold Worker.unposted at h
  cases hpc : w.pc <;> simp_all [Loop.result]

theorem Posting.returned (h : Posting w q i) (hi : MpmcQueue.Inv (1024*16) q) {k : Nat}
    {x : CSeckillResult} (hm : (.worker i k,x) ∈ q.tickets) (hk : k < w.tries) :
    ∃ t, q.pc (.worker i k) = .enqReturn x (some t) := by
  obtain ⟨data,won,hret⟩ := h.past k hk
  obtain ⟨t,ht⟩ := List.mem_iff_getElem?.mp hm
  obtain ⟨pos,hw,-⟩ := hi.winner t _ x ht
  rw [hret] at hw ⊢
  cases won with
  | none => simp [MpmcQueue.Pc.enqueued] at hw
  | some p =>
    simp only [MpmcQueue.Pc.enqueued,Option.some.injEq,Prod.mk.injEq] at hw
    exact ⟨p,by rw [hw.2]⟩

theorem Posting.current (h : Posting w q i) (hi : MpmcQueue.Inv (1024*16) q)
    {x : CSeckillResult} (hm : (.worker i w.tries,x) ∈ q.tickets) :
    w.pc.result.isSome ∧ w.unposted q i = none := by
  have hsome : (q.pc (.worker i w.tries)).enqueued.isSome :=
    hi.mem_tickets_iff.mp (List.mem_map.mpr ⟨_,hm,rfl⟩)
  cases hpub : w.pc.publishing with
  | false =>
    rw [h.present hpub] at hsome
    simp [MpmcQueue.Pc.enqueued] at hsome
  | true => cases hpc : w.pc <;> simp_all [Loop.publishing,Loop.result,Worker.unposted]

theorem Posting.reported (h : Posting w q i) (hi : MpmcQueue.Inv (1024*16) q) (hl : Latest w)
    (ho : Ordered q i) (hp : payloads w.processed = rs ++ r :: more) : Reported q i rs := by
  have hpre : verdicts rs <+: verdicts (payloads w.processed) :=
    verdicts_isPrefix (hp ▸ List.prefix_append _ _)
  have hall := h.posted
  have htotal := hall.length_eq
  simp only [postedBy,List.length_append,List.length_map] at htotal
  have hlen : (verdicts rs).length ≤ (q.tickets.filter (·.1.by i)).length := by
    cases hun : w.unposted q i with
    | none =>
      rw [hun,Option.toList_none,List.length_nil,Nat.add_zero] at htotal
      rw [← htotal]
      exact hpre.length_le
    | some res =>
      have := hl.length_lt hp (Worker.result_of_unposted (by rw [hun]; rfl))
      rw [hun,Option.toList_some,List.length_singleton] at htotal
      omega
  refine ⟨(q.tickets.filter (·.1.by i)).take (verdicts rs).length,List.take_prefix _ _,?_,?_⟩
  · have htake := List.forall₂_take (verdicts rs).length hall
    rw [← List.prefix_iff_eq_take.mp hpre,
      List.take_append_of_le_length (by simpa [postedBy] using hlen)] at htake
    simpa only [postedBy,List.map_take] using htake
  · rintro ⟨c,x⟩ hx
    have hx' := List.mem_filter.mp (List.mem_of_mem_take hx)
    obtain ⟨k,rfl⟩ : ∃ k, c = .worker i k := by
      cases c <;> simp_all [ResultCaller.by]
    rcases Nat.lt_or_eq_of_le (h.begun hi hx'.1) with hlt | rfl
    · exact h.returned hi hx'.1 hlt
    -- the current attempt's ticket is the last, and its result is not one of `rs`
    · obtain ⟨hsome,hun⟩ := h.current hi hx'.1
      have hmore := hl.length_lt hp hsome
      rw [htotal,hun,Option.toList_none,List.length_nil,Nat.add_zero] at hmore
      have hpair := ho.filter (·.1.by i)
      rw [← List.take_append_drop (verdicts rs).length (q.tickets.filter (·.1.by i)),
        List.pairwise_append] at hpair
      obtain ⟨⟨c',y⟩,hy⟩ := List.exists_mem_of_length_pos
        (l := (q.tickets.filter (·.1.by i)).drop (verdicts rs).length)
        (by rw [List.length_drop]; omega)
      have hy' := List.mem_filter.mp (List.mem_of_mem_drop hy)
      obtain ⟨k,rfl⟩ : ∃ k, c' = .worker i k := by
        cases c' <;> simp_all [ResultCaller.by]
      have := hpair.2.2 _ hx _ hy w.tries k rfl rfl
      have := h.begun hi hy'.1
      omega

variable [DecidableEq κ] {e : State κ}

theorem reachable_reported (h : system.Reachable e) (i : ShardId) :
    Latest (e.shards i).worker ∧ Ordered e.shared.resultQueue i := by
  obtain ⟨s₀,as,hi,hr⟩ := h
  refine System.Reachable.invariant_run (I := fun e => ∀ i,
    Latest (e.shards i).worker ∧ Ordered e.shared.resultQueue i) ?_ (.of_init hi) hr ?_ i
  · intro e a e' hreach hinv hn i
    refine ⟨?_,(hinv i).2.next (reachable_results hreach) hn⟩
    rcases State.next_shard hn i with hs | hs
    · rw [hs]; exact (hinv i).1
    · generalize e'.shards i = s' at hs
      cases hs with
      | work hw => exact (hinv i).1.step (reachable_recorded hreach i) (Worker.step_cases hw)
      | _ => exact (hinv i).1
  · intro i
    obtain ⟨_,_,_,_,rfl⟩ := hi
    exact ⟨nofun,.nil⟩

end Reported
end Flashsale.Engine
