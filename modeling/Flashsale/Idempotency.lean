import Flashsale.Flow
import Flashsale.Journal
import Flashsale.ResultQueue
import Mathlib
set_option autoImplicit false

namespace Flashsale.Engine
open Transition Transducer
variable {κ : Type}

def Worker.salesOf (w : Worker) (reqId : UInt64) : Nat :=
  w.sold.countP (fun r => r.requestId = reqId)

def State.salesOf (e : State κ) (reqId : UInt64) : Nat := ∑ i, (e.shards i).worker.salesOf reqId

def State.recordsOf (e : State κ) (reqId : UInt64) : Nat :=
  ∑ i, (e.shards i).worker.wal.countP (·.requestId = reqId)

def State.successesOf (e : State κ) (reqId : UInt64) : Nat :=
  e.shared.resultQueue.tickets.countP fun x => x.2.requestId = reqId ∧ x.2.status = 1

/-- Each client id has one success, one record and one deduction at most. -/
def SoldOnce (e : State κ) : Prop :=
  ∀ reqId, 0 < reqId → reqId ≤ benchmarkLimit →
    e.successesOf reqId ≤ 1 ∧ e.recordsOf reqId ≤ 1 ∧ e.salesOf reqId ≤ 1

/-- A worker takes up a request whose id was sold to and is not, or no longer, in
its own `seen_requests_`, while its stock covers the request. -/
def Resells (e : State κ) (a : Act κ) : Prop :=
  ∃ x ∈ e.takesUp a, 0 < e.salesOf x.2.requestId ∧
    x.2.requestId ∉ (e.shards x.1).worker.seenRequests ∧
      ∃ stock ∈ (e.shards x.1).worker.inventory x.2.skuId, x.2.qty ≤ stock

instance (e : State κ) (a : Act κ) : Decidable (Resells e a) :=
  inferInstanceAs (Decidable (∃ x ∈ e.takesUp a, _))

section Counts
variable {w w' : Worker} {sh sh' : Shared κ} {req : Request} {items : List Request} {count : Nat}
  {uninit : CSeckillResult} {reqId : UInt64}

theorem ProcessStep.salesOf (hs : ProcessStep w sh req items count uninit sh' w') :
    (∀ reqId, w'.salesOf reqId = w.salesOf reqId) ∨
      req.requestId ∉ w.seenRequests ∧ (w.deduct req).1 = 1 ∧
        ∀ reqId, w'.salesOf reqId = w.salesOf reqId + if req.requestId = reqId then 1 else 0 := by
  cases hs with
  | decided id limit fresh =>
    have hsold := w.decide_sold req items count
    by_cases hs : (w.deduct req).1 = 1
    · refine .inr ⟨fresh,hs,fun reqId => ?_⟩
      rw [Worker.salesOf,hsold,if_pos hs,List.countP_append]
      by_cases hid : req.requestId = reqId <;>
        simp [Worker.salesOf,Payload.requestId,Request.payload,hid]
    · refine .inl fun reqId => ?_
      rw [Worker.salesOf,hsold,if_neg hs,List.append_nil,Worker.salesOf]
  | _ => exact .inl fun _ => rfl

theorem verdict_decided {rs : List Payload} {r : Payload} {status : Int32}
    (h : .decided r status ∈ verdicts rs) : r.requestId ≠ 0 ∧ r.requestId ≤ benchmarkLimit := by
  obtain ⟨x,hx,hv⟩ := List.mem_filterMap.mp h
  obtain rfl : x = some (.decided r status) := hv
  obtain ⟨l,r',-,he⟩ := mem_outputs _ hx
  unfold Ledger.process at he
  repeat' split at he
  all_goals simp_all

theorem verdict_benchmark {rs : List Payload} {id : UInt64} (h : .benchmark id ∈ verdicts rs) :
    benchmarkLimit < id := by
  obtain ⟨x,hx,hv⟩ := List.mem_filterMap.mp h
  obtain rfl : x = some (.benchmark id) := hv
  obtain ⟨l,r',-,he⟩ := mem_outputs _ hx
  unfold Ledger.process at he
  repeat' split at he
  all_goals simp_all

theorem Recorded.sold_range (h : Recorded w) {r : Payload} (hr : r ∈ w.sold) :
    r.requestId ≠ 0 ∧ r.requestId ≤ benchmarkLimit := by
  obtain ⟨res,hres,rfl⟩ := List.mem_map.mp hr
  have hm : (res.payload,res.status) ∈ (verdicts (payloads w.processed)).filterMap Verdict.decision := by
    rw [← h.decided]
    exact List.mem_map.mpr ⟨res,(List.mem_filter.mp hres).1,rfl⟩
  obtain ⟨v,hv,he⟩ := List.mem_filterMap.mp hm
  cases v with
  | benchmark id => cases he
  | decided r status =>
    cases he
    exact verdict_decided hv

def Verdict.sells (reqId : UInt64) : Verdict → Bool
  | .benchmark _ => false
  | .decided r status => r.requestId = reqId ∧ status = 1

theorem Recorded.salesOf_eq (h : Recorded w) :
    w.salesOf reqId = (verdicts (payloads w.processed)).countP (Verdict.sells reqId) := by
  have hdecided : w.salesOf reqId =
      (w.decided.map (fun res => (res.payload,res.status))).countP
        fun x => x.1.requestId = reqId ∧ x.2 = 1 := by
    simp [Worker.salesOf,Worker.sold,List.countP_map,List.countP_filter,Function.comp_def]
  rw [hdecided,h.decided,List.countP_filterMap]
  congr 1
  funext v
  cases v <;> rfl

theorem Journaled.recordsOf_le (h : Journaled [] w) :
    w.wal.countP (·.requestId = reqId) ≤ w.salesOf reqId := by
  have hrecords : w.wal.map WalRecord.payload ++ w.unjournaled.toList = w.sold := h.records
  rw [Worker.salesOf,← hrecords,List.countP_append,List.countP_map]
  exact Nat.le_add_right _ _

theorem countP_eq_of_forall₂ {α β : Type} {p : α → Bool} {q : β → Bool} {l : List α} {m : List β}
    (h : List.Forall₂ (fun x y => p x = q y) l m) : l.countP p = m.countP q := by
  induction h with
  | nil => rfl
  | cons hxy _ ih => simp [List.countP_cons,hxy,ih]

end Counts

section Queue
variable {q : ResultQueue κ} {w : Worker} {i : ShardId} {reqId : UInt64}

def CSeckillResult.succeeds (reqId : UInt64) (res : CSeckillResult) : Bool :=
  res.requestId = reqId ∧ res.status = 1

theorem Posting.successes_le (h : Posting w q i) (hr : Recorded w) (hid : reqId ≤ benchmarkLimit) :
    (postedBy q i).countP (CSeckillResult.succeeds reqId) ≤ w.salesOf reqId := by
  have hall : List.Forall₂ (fun v res => v.sells reqId = CSeckillResult.succeeds reqId res)
      (verdicts (payloads w.processed)) (postedBy q i ++ (w.unposted q i).toList) := by
    have hand := (List.forall₂_and_left _ _).mpr ⟨fun v hv => hv,h.posted⟩
    refine hand.imp fun v res ⟨hv,hof⟩ => ?_
    cases v with
    | benchmark id =>
      have hlt := verdict_benchmark hv
      obtain ⟨rfl,-⟩ := hof
      have hne : res.requestId ≠ reqId := by
        rintro rfl
        exact UInt64.lt_irrefl _ (UInt64.lt_of_lt_of_le hlt hid)
      simp [Verdict.sells,CSeckillResult.succeeds,hne]
    | decided r status =>
      obtain ⟨rfl,rfl⟩ := hof
      rfl
  rw [hr.salesOf_eq,countP_eq_of_forall₂ hall,List.countP_append]
  exact Nat.le_add_right _ _

def Posters (q : ResultQueue κ) : Prop := MpmcQueue.Carries (fun c _ => ∃ i k, c = .worker i k) q

theorem countP_postedBy (h : ∀ x ∈ q.tickets, ∃ i k, x.1 = .worker i k) (p : CSeckillResult → Bool) :
    q.tickets.countP (fun x => p x.2) = ∑ i, (postedBy q i).countP p := by
  simp only [postedBy,List.countP_map,Function.comp_def]
  generalize q.tickets = l at h
  induction l with
  | nil => simp
  | cons x l ih =>
    obtain ⟨i,k,hx⟩ := h x (by simp)
    rw [List.countP_cons,ih fun y hy => h y (by simp [hy])]
    refine (sum_add_of_ne (i := i) (fun j hj => ?_) ?_).symm
    · have hby : x.1.by j = false := by simp [hx,ResultCaller.by,Ne.symm hj]
      simp [hby]
    · have hby : x.1.by i = true := by simp [hx,ResultCaller.by]
      simp [hby,List.countP_cons]

end Queue

section Runs
variable [DecidableEq κ] {e e' : State κ} {a : Act κ} {reqId : UInt64}

theorem Posters.next (h : Posters e.shared.resultQueue) (hn : e.next a = some e') :
    Posters e'.shared.resultQueue := by
  rcases State.next_results hn with hq | hq
  · rw [hq]; exact h
  · generalize e'.shared.resultQueue = q at hq
    cases hq with
    | @offer i inp res items count q pc next =>
      exact MpmcQueue.Carries.next h (by rintro c data ⟨⟩; exact ⟨_,_,rfl⟩) next
    | publish pc next => exact MpmcQueue.Carries.next h (by rintro c data ⟨⟩) next
    | ask idle next => exact MpmcQueue.Carries.next h (by rintro c data ⟨⟩) next
    | poll polling next => exact MpmcQueue.Carries.next h (by rintro c data ⟨⟩) next

theorem reachable_posters (h : system.Reachable e) : Posters e.shared.resultQueue := by
  refine h.invariant (I := fun e => Posters e.shared.resultQueue) ?_ fun _ _ _ h hn => h.next hn
  rintro e ⟨_,_,_,_,rfl⟩ c data ⟨⟩

theorem reachable_posted (h : system.Reachable e) :
    ∀ x ∈ e.shared.resultQueue.tickets, ∃ i k, x.1 = .worker i k := by
  rintro ⟨c,res⟩ hx
  obtain ⟨t,ht⟩ := List.mem_iff_getElem?.mp hx
  exact (reachable_results h).inv.tickets_carry (reachable_posters h) ht

/-- In every reachable state the sales of an id bound its records and its successes. -/
theorem reachable_sales (h : system.Reachable e) (hid : reqId ≤ benchmarkLimit) :
    e.successesOf reqId ≤ e.salesOf reqId ∧ e.recordsOf reqId ≤ e.salesOf reqId := by
  constructor
  · have hcount := countP_postedBy (reachable_posted h) (CSeckillResult.succeeds reqId)
    refine (le_of_eq hcount).trans (Finset.sum_le_sum fun i _ => ?_)
    exact ((reachable_results h).posting i).successes_le (reachable_recorded h i) hid
  · exact Finset.sum_le_sum fun i _ => (reachable_ran h i).journaled.recordsOf_le

theorem ShardStep.sold {i : ShardId} {s' : Shard κ} (hs : ShardStep e i a s') :
    s'.worker.sold = (e.shards i).worker.sold ∨
      ∃ inp req items count sh', a = .work i inp ∧
        (e.shards i).worker.pc = .process (req :: items) count ∧
        ProcessStep (e.shards i).worker e.shared req items count inp.uninit sh' s'.worker := by
  cases hs with
  | @work inp sh w hn =>
    rcases (Worker.step_cases hn).ledger with ⟨-,-,hd⟩ | ⟨req,items,count,hpc,hstep⟩
    · exact .inl (by rw [Worker.sold,hd]; rfl)
    · exact .inr ⟨inp,req,items,count,sh,rfl,hpc,hstep⟩
  | _ => exact .inl rfl

theorem State.next_sales (hn : e.next a = some e') :
    (∀ reqId, e'.salesOf reqId = e.salesOf reqId) ∨
      ∃ i inp req items count, a = .work i inp ∧
        (e.shards i).worker.pc = .process (req :: items) count ∧
        req.requestId ∉ (e.shards i).worker.seenRequests ∧
        ((e.shards i).worker.deduct req).1 = 1 ∧
        ∀ reqId, e'.salesOf reqId = e.salesOf reqId + if req.requestId = reqId then 1 else 0 := by
  by_cases hw : ∃ i inp, a = .work i inp
  · obtain ⟨i,inp,rfl⟩ := hw
    have hother : ∀ j, j ≠ i → e'.shards j = e.shards j := by
      intro j hj
      obtain ⟨⟨sh,w⟩,-,rfl⟩ := Option.map_eq_some_iff.mp hn
      exact State.setShard_shards_of_ne hj
    have hsum : ∀ {reqId n}, (e'.shards i).worker.salesOf reqId =
        (e.shards i).worker.salesOf reqId + n → e'.salesOf reqId = e.salesOf reqId + n :=
      fun h => sum_add_of_ne (fun j hj => by rw [hother j hj]) h
    have hquiet : (∀ reqId, (e'.shards i).worker.salesOf reqId = (e.shards i).worker.salesOf reqId) →
        ∀ reqId, e'.salesOf reqId = e.salesOf reqId := fun h reqId => hsum (n := 0) (h reqId)
    rcases State.next_shard hn i with hs | hs
    · exact .inl (hquiet fun _ => by rw [hs])
    rcases hs.sold with hs | ⟨inp,req,items,count,sh',ha,hpc,hstep⟩
    · exact .inl (hquiet fun _ => by rw [Worker.salesOf,hs]; rfl)
    rcases hstep.salesOf with hsame | ⟨hfresh,hone,hadd⟩
    · exact .inl (hquiet hsame)
    · exact .inr ⟨i,inp,req,items,count,ha,hpc,hfresh,hone,fun reqId => hsum (hadd reqId)⟩
  · left
    intro reqId
    refine Finset.sum_congr rfl fun i _ => ?_
    rcases State.next_shard hn i with hs | hs
    · rw [hs]
    · rcases hs.sold with hs | ⟨inp,_,_,_,_,rfl,-,-⟩
      · rw [Worker.salesOf,hs]
        rfl
      · exact absurd ⟨i,inp,rfl⟩ hw

theorem reachable_sold_range (h : system.Reachable e) (hpos : 0 < e.salesOf reqId) :
    reqId ≠ 0 ∧ reqId ≤ benchmarkLimit := by
  obtain ⟨i,-,hi⟩ := Finset.exists_ne_zero_of_sum_ne_zero (Nat.pos_iff_ne_zero.mp hpos)
  obtain ⟨r,hr,hid⟩ := List.countP_pos_iff.mp (Nat.pos_of_ne_zero hi)
  rw [decide_eq_true_eq] at hid
  subst hid
  exact (reachable_recorded h i).sold_range hr

theorem Resells.next (h : Resells e a) (hreach : system.Reachable e) (hn : e.next a = some e') :
    ∃ reqId, 0 < e.salesOf reqId ∧ e'.salesOf reqId = e.salesOf reqId + 1 := by
  obtain ⟨⟨i,req⟩,hx,hpos,hfresh,hstock⟩ := h
  obtain ⟨inp,items,count,rfl,hpc⟩ := State.takesUp_eq_some.mp hx
  obtain ⟨hzero,hle⟩ := reachable_sold_range hreach hpos
  refine ⟨req.requestId,hpos,?_⟩
  obtain ⟨⟨sh,w⟩,hw,rfl⟩ := Option.map_eq_some_iff.mp hn
  refine sum_add_of_ne (i := i) (fun j hj => by rw [State.setShard_shards_of_ne hj]) ?_
  rw [State.setShard_shards_self]
  simp only [Worker.step,hpc,Option.some.injEq] at hw
  cases Worker.process_step hw with
  | warmUp id => exact absurd id hzero
  | barrier id =>
    rw [id] at hle
    exact absurd hle (by decide)
  | benchmark id limit => exact absurd (UInt64.lt_of_lt_of_le limit hle) (UInt64.lt_irrefl _)
  | duplicate id limit seen => exact absurd seen hfresh
  | decided id limit fresh =>
    rw [Worker.salesOf,Worker.decide_sold,if_pos ((Worker.deduct_eq_one_iff _ _).mpr hstock),
      List.countP_append]
    simp [Worker.salesOf,Payload.requestId,Request.payload]

theorem SoldOnce.next (h : SoldOnce e) (hreach : system.Reachable e) (ha : ¬ Resells e a)
    (hn : e.next a = some e') : SoldOnce e' := by
  intro reqId hpos hle
  obtain ⟨hsucc,hrec⟩ := reachable_sales (hreach.step hn) hle
  suffices hs : e'.salesOf reqId ≤ 1 from ⟨hsucc.trans hs,hrec.trans hs,hs⟩
  have hbefore := (h reqId hpos hle).2.2
  rcases State.next_sales hn with hsame | ⟨i,inp,req,items,count,rfl,hpc,hfresh,hone,hadd⟩
  · rw [hsame]; exact hbefore
  · rw [hadd]
    by_cases hid : req.requestId = reqId
    · subst hid
      have hzero : e.salesOf req.requestId = 0 := by
        by_contra hne
        exact ha ⟨(i,req),State.takesUp_eq_some.mpr ⟨inp,items,count,rfl,hpc⟩,
          Nat.pos_of_ne_zero hne,hfresh,(Worker.deduct_eq_one_iff _ _).mp hone⟩
      simp [hzero]
    · simpa [hid] using hbefore

/-- An id sells once in all states of a run exactly if no step of it sells to an
id that was sold to and that the worker has not, or no longer, seen. -/
theorem sold_once_iff {sold enq deq barrier : UInt64} {as : List (Act κ)}
    (hr : system.Run (initEngine sold enq deq barrier) as e) :
    system.Along (fun e a => ¬ Resells e a) (initEngine sold enq deq barrier) as ↔
      system.Throughout SoldOnce (initEngine sold enq deq barrier) as := by
  have hinit : SoldOnce (initEngine sold enq deq barrier : State κ) := by
    intro reqId _ hle
    have hreach : system.Reachable (initEngine sold enq deq barrier : State κ) :=
      .of_init ⟨_,_,_,_,rfl⟩
    obtain ⟨hsucc,hrec⟩ := reachable_sales hreach hle
    have hzero : (initEngine sold enq deq barrier : State κ).salesOf reqId = 0 :=
      Finset.sum_eq_zero fun _ _ => rfl
    omega
  have hneed : ∀ (e : State κ) (a : Act κ) (e' : State κ), system.Reachable e ∧ SoldOnce e →
      system.next e a = some e' → SoldOnce e' → ¬ Resells e a := by
    intro e a e' h hn h' hres
    obtain ⟨reqId,hpos,hadd⟩ := hres.next h.1 hn
    obtain ⟨hzero,hle⟩ := reachable_sold_range h.1 hpos
    have := (h' reqId (UInt64.pos_iff_ne_zero.mpr hzero) hle).2.2
    omega
  exact System.along_iff_throughout (fun _ h => h.2)
    (fun e a e' h ha hn => ⟨h.1.step hn,h.2.next h.1 ha hn⟩) hneed hr
    ⟨.of_init ⟨_,_,_,_,rfl⟩,hinit⟩

end Runs

/-- Calls 0 and 1 bring the same request, and the worker takes it up twice. -/
def replayRun : List (Act Nat) :=
  acceptRun ++
    .start 1 (.enqueueRequest (saleRequest 5)) :: List.replicate 11 (.client 1 2 false) ++
    List.replicate 24 (.dispatch 1 3 4 false) ++ List.replicate 32 (.work 1 default)

def replayedState : State Nat :=
  (system.exec (initEngine 0 0 0 0) replayRun).get (by decide +kernel)

theorem sold_once_iff_replayed :
    (replayedState.shards 1).worker.processed.map (·.requestId) = [5,5] ∧
    replayedState.salesOf 5 = 1 ∧
    system.Throughout SoldOnce (initEngine 0 0 0 0 : State Nat) replayRun :=
  have hr : system.Run (initEngine 0 0 0 0) replayRun replayedState :=
    System.run_of_exec (Option.some_get _).symm
  ⟨by decide +kernel,by decide +kernel,(sold_once_iff hr).mp (by decide +kernel)⟩

def resellRun : List (Act Nat) :=
  acceptRun ++
    .start 1 (.enqueueRequest { saleRequest 5 with skuId := 456 }) ::
      List.replicate 11 (.client 1 2 false) ++
    List.replicate 12 (.dispatch 1 3 4 false) ++ List.replicate 12 (.dispatch 0 3 4 false) ++
    List.replicate 24 (.work 1 default) ++ List.replicate 24 (.work 0 default)

def resoldState : State Nat :=
  (system.exec (initEngine 0 0 0 0) resellRun).get (by decide +kernel)

theorem resold_on_other_sku :
    system.Run (initEngine 0 0 0 0) resellRun resoldState ∧
    (∀ a ∈ resellRun, ∀ req ∈ a.requests, 0 < req.requestId ∧ req.requestId ≤ benchmarkLimit) ∧
    resoldState.successesOf 5 = 2 ∧ resoldState.recordsOf 5 = 2 ∧ resoldState.salesOf 5 = 2 ∧
    ¬ SoldOnce resoldState := by
  have hsales : resoldState.salesOf 5 = 2 := by decide +kernel
  refine ⟨System.run_of_exec (Option.some_get _).symm,by decide +kernel,by decide +kernel,
    by decide +kernel,hsales,fun h => ?_⟩
  have := (h 5 (by decide) (by decide)).2.2
  omega

end Flashsale.Engine
