import Flashsale.AbstractEngine
import Flashsale.Transducer
import Flashsale.WorkerSteps
set_option autoImplicit false

/-!
What `Process` decides, as a function of the stock and of the ids seen: each
worker's stock, ids and decisions are those of the requests it processed, run
through this function in their order.
-/

namespace Flashsale.Engine
open Transition Transducer
variable {κ : Type}

/-- The inventory check on the stock alone. -/
def deductFrom (inventory : Int64 → Option Int32) (r : Payload) :
    (Int64 → Option Int32) × Int32 :=
  match inventory r.1 with
  | some stock =>
      if stock ≥ r.2.1 then (Function.update inventory r.1 (some (stock - r.2.1)),1)
      else (inventory,2)
  | none => (inventory,0)

structure Ledger where
  inventory : Int64 → Option Int32
  seen : List UInt64

def startLedger : Ledger where
  inventory := initialInventory
  seen := []

inductive Verdict where
  | benchmark (reqId : UInt64)
  | decided (r : Payload) (status : Int32)
  deriving DecidableEq

def Verdict.Of (v : Verdict) (res : CSeckillResult) : Prop :=
  match v with
  | .benchmark reqId => res.requestId = reqId ∧ res.status = 1
  | .decided r status => res.payload = r ∧ res.status = status

def Verdict.decision : Verdict → Option (Payload × Int32)
  | .benchmark _ => none
  | .decided r status => some (r,status)

def Ledger.process (l : Ledger) (r : Payload) : Ledger × Option Verdict :=
  if r.requestId = 0 ∨ r.requestId = barrierId then (l,none)
  else if r.requestId > benchmarkLimit then (l,some (.benchmark r.requestId))
  else if r.requestId ∈ l.seen then (l,none)
  else
    ({ inventory := (deductFrom l.inventory r).1, seen := remember l.seen r.requestId },
      some (.decided r (deductFrom l.inventory r).2))

def Payload.Control (r : Payload) : Prop := r.requestId = 0 ∨ r.requestId = barrierId

theorem Ledger.process_control {l : Ledger} {r : Payload} (h : r.Control) :
    l.process r = (l,none) := if_pos h

theorem Ledger.process_benchmark {l : Ledger} {r : Payload} (h : ¬ r.Control)
    (hlim : r.requestId > benchmarkLimit) : l.process r = (l,some (.benchmark r.requestId)) :=
  (if_neg h).trans (if_pos hlim)

theorem Ledger.process_fresh {l : Ledger} {r : Payload} (h : ¬ r.Control)
    (hlim : ¬ r.requestId > benchmarkLimit) (hseen : r.requestId ∉ l.seen) : l.process r =
      ({ inventory := (deductFrom l.inventory r).1, seen := remember l.seen r.requestId },
        some (.decided r (deductFrom l.inventory r).2)) :=
  (if_neg h).trans ((if_neg hlim).trans (if_neg hseen))

def verdicts (rs : List Payload) : List Verdict :=
  (outputs Ledger.process startLedger rs).filterMap id

theorem verdicts_concat (rs : List Payload) (r : Payload) :
    verdicts (rs ++ [r]) =
      verdicts rs ++ ((after Ledger.process startLedger rs).process r).2.toList := by
  rw [verdicts,outputs_append,List.filterMap_append]
  cases h : ((after Ledger.process startLedger rs).process r).2 <;> simp [h,verdicts]

def Loop.result : Loop → Option CSeckillResult
  | .flag _ res _ _ | .notify res _ _ | .publish res _ _ => some res
  | _ => none

def Worker.ledger (w : Worker) : Ledger where
  inventory := w.inventory
  seen := w.seenRequests

theorem Worker.deduct_payload (w : Worker) (req : Request) :
    (w.deduct req).1 = (deductFrom w.inventory req.payload).2 ∧
      (w.deduct req).2.inventory = (deductFrom w.inventory req.payload).1 := by
  simp only [Worker.deduct,deductFrom,Request.payload]
  cases w.inventory req.skuId with
  | none => exact ⟨rfl,rfl⟩
  | some stock => by_cases hq : req.qty ≤ stock <;> simp [hq]

section Stock
variable {inventory : Int64 → Option Int32} {r : Payload} {l : Ledger} {sku : Int64}
  {rs : List Payload} {reqId : UInt64}

/-- Who asks for something gets nothing where nothing is left. -/
theorem deductFrom_of_zero (h : inventory r.1 = some 0) (hq : 1 ≤ r.2.1.toInt) :
    deductFrom inventory r = (inventory,2) := by
  have hlt : ¬ (0 : Int32) ≥ r.2.1 := by
    rw [ge_iff_le,Int32.le_iff_toInt_le]
    have : (0 : Int32).toInt = 0 := rfl
    omega
  simp [deductFrom,h,hlt]

theorem deductFrom_keeps (hq : 1 ≤ r.2.1.toInt) (h : sku ≠ r.1 ∨ inventory sku = some 0) :
    (deductFrom inventory r).1 sku = inventory sku := by
  by_cases hs : sku = r.1
  · subst hs
    rw [deductFrom_of_zero (h.resolve_left (by simp)) hq]
  · unfold deductFrom
    repeat' split
    all_goals simp [hs]

/-- A stock that is gone is gone for good. -/
theorem Ledger.process_keeps (h : l.inventory sku = some 0)
    (hq : r.requestId ≠ 0 → r.requestId ≤ benchmarkLimit → 1 ≤ r.2.1.toInt) :
    (l.process r).1.inventory sku = some 0 := by
  unfold Ledger.process
  split
  · exact h
  rename_i hid
  split
  · exact h
  rename_i hlim
  split
  · exact h
  · exact (deductFrom_keeps (hq (by tauto) (UInt64.not_lt.mp hlim)) (.inr h)).trans h

theorem after_keeps (h : l.inventory sku = some 0)
    (hq : ∀ r ∈ rs, r.requestId ≠ 0 → r.requestId ≤ benchmarkLimit → 1 ≤ r.2.1.toInt) :
    (after Ledger.process l rs).inventory sku = some 0 := by
  induction rs generalizing l with
  | nil => exact h
  | cons r rs ih =>
    exact ih (Ledger.process_keeps h (hq r (by simp))) fun r' hr' => hq r' (by simp [hr'])

theorem mem_remember {seen : List UInt64} (h : reqId ∈ remember seen r.requestId) :
    reqId = r.requestId ∨ reqId ∈ seen := by
  unfold remember at h
  split at h
  · cases h
  · exact List.mem_cons.mp h

theorem Ledger.process_seen (h : reqId ∈ (l.process r).1.seen) :
    reqId = r.requestId ∨ reqId ∈ l.seen := by
  unfold Ledger.process at h
  repeat' split at h
  all_goals first
    | exact .inr h
    | exact mem_remember h

theorem after_seen (h : reqId ∈ (after Ledger.process l rs).seen) :
    reqId ∈ l.seen ∨ ∃ r ∈ rs, reqId = r.requestId := by
  induction rs generalizing l with
  | nil => exact .inl h
  | cons r rs ih =>
    rcases ih h with h | ⟨r',hr',he⟩
    · rcases Ledger.process_seen h with he | h
      · exact .inr ⟨r,by simp,he⟩
      · exact .inl h
    · exact .inr ⟨r',by simp [hr'],he⟩

end Stock
section Steps
variable {w w' : Worker} {sh sh' : Shared κ} {req : Request} {items : List Request} {count : Nat}
  {uninit : CSeckillResult}

@[simp] theorem Request.decision_payload (req : Request) (status : Int32) :
    (req.decision status).payload = req.payload := rfl

@[simp] theorem Request.decision_status (req : Request) (status : Int32) :
    (req.decision status).status = status := rfl

theorem benchmarkResult_of (req : Request) (res : CSeckillResult) :
    (Verdict.benchmark req.requestId).Of (req.benchmarkResult res) := by
  unfold Request.benchmarkResult
  dsimp only
  split <;> exact ⟨rfl,rfl⟩

/-- `Process` keeps the ledger, and what it has to hand over is its verdict. -/
theorem ProcessStep.ledger (h : ProcessStep w sh req items count uninit sh' w') :
    w'.processed = w.processed ++ [req] ∧
      w'.ledger = (w.ledger.process req.payload).1 ∧
      w'.decided.map (fun res => (res.payload,res.status)) =
        w.decided.map (fun res => (res.payload,res.status)) ++
          ((w.ledger.process req.payload).2.bind Verdict.decision).toList ∧
      Option.Rel Verdict.Of (w.ledger.process req.payload).2 w'.pc.result := by
  have hid : Payload.requestId req.payload = req.requestId := rfl
  cases h with
  | warmUp id => simp [Worker.take,Ledger.process,hid,id,Worker.ledger,Loop.result]
  | barrier id => simp [Worker.take,Ledger.process,hid,id,Worker.ledger,Loop.result]
  | benchmark id limit =>
    have hzero : req.requestId ≠ 0 := by
      rintro hz
      rw [hz] at limit
      exact absurd limit (by decide)
    simp only [Ledger.process,hid,hzero,id,or_self,if_false,limit,if_true]
    exact ⟨rfl,rfl,by simp [Worker.take,Verdict.decision],.some (benchmarkResult_of _ _)⟩
  | duplicate id limit seen =>
    have hb : req.requestId ≠ barrierId := by
      rintro hb
      rw [hb] at limit
      exact absurd limit (by decide)
    have hle := UInt64.not_lt.mpr limit
    simp [Worker.take,Ledger.process,hid,id,hb,hle,seen,Worker.ledger,Loop.result]
  | decided id limit fresh =>
    have hb : req.requestId ≠ barrierId := by
      rintro hb
      rw [hb] at limit
      exact absurd limit (by decide)
    have hle := UInt64.not_lt.mpr limit
    obtain ⟨hstatus,hinv⟩ := w.deduct_payload req
    simp only [Worker.decide,Worker.take,Ledger.process,hid,id,hb,hle,fresh,Worker.ledger,
      Loop.result,hstatus,hinv,or_self,if_false]
    exact ⟨trivial,trivial,by simp [Verdict.decision],.some ⟨rfl,rfl⟩⟩

/-- The worker stands where its requests bring the ledger. -/
structure Recorded (w : Worker) : Prop where
  ledger : w.ledger = after Ledger.process startLedger (payloads w.processed)
  decided : w.decided.map (fun res => (res.payload,res.status)) =
    (verdicts (payloads w.processed)).filterMap Verdict.decision

theorem startWorker_recorded : Recorded startWorker := ⟨rfl,rfl⟩

theorem ProcessStep.recorded (h : Recorded w)
    (hs : ProcessStep w sh req items count uninit sh' w') : Recorded w' := by
  obtain ⟨hp,hl,hd,-⟩ := hs.ledger
  have hpay : payloads w'.processed = payloads w.processed ++ [req.payload] := by
    rw [hp,payloads_append]
    rfl
  refine ⟨?_,?_⟩
  · rw [hl,hpay,after_append,← h.ledger]
    rfl
  · rw [hd,hpay,verdicts_concat,List.filterMap_append,← h.decided,← h.ledger]
    cases (w.ledger.process req.payload).2 with
    | none => rfl
    | some v => cases v <;> rfl

variable [DecidableEq κ] {i : ShardId} {inp : WorkerInput}

theorem WorkStep.ledger (h : WorkStep w sh i inp sh' w') :
    (w'.processed = w.processed ∧ w'.ledger = w.ledger ∧ w'.decided = w.decided) ∨
      ∃ req items count, w.pc = .process (req :: items) count ∧
        ProcessStep w sh req items count inp.uninit sh' w' := by
  cases h with
  | process pc step => exact .inr ⟨_,_,_,pc,step⟩
  | @flag req res items count pc =>
    obtain ⟨wal,hwal⟩ := w.journal_eq req res inp.systemNow
    rw [hwal]
    exact .inl ⟨rfl,rfl,rfl⟩
  | _ => exact .inl ⟨rfl,rfl,rfl⟩

theorem Recorded.step (h : Recorded w) (hs : WorkStep w sh i inp sh' w') : Recorded w' := by
  rcases hs.ledger with ⟨hp,hl,hd⟩ | ⟨req,items,count,-,hstep⟩
  · exact ⟨by rw [hl,hp]; exact h.ledger,by rw [hd,hp]; exact h.decided⟩
  · exact hstep.recorded h

theorem ShardStep.processed {e : State κ} {a : Act κ} {s' : Shard κ} (hs : ShardStep e i a s') :
    (e.shards i).worker.processed <+: s'.worker.processed := by
  cases hs with
  | work hn =>
    rcases (Worker.step_cases hn).ledger with ⟨hp,-⟩ | ⟨req,items,count,-,hstep⟩
    · exact hp ▸ List.prefix_refl _
    · rw [hstep.ledger.1]
      exact List.prefix_append _ _
  | _ => exact List.prefix_refl _

theorem run_processed {e e' : State κ} {as : List (Act κ)} (hr : system.Run e as e') (i : ShardId) :
    (e.shards i).worker.processed <+: (e'.shards i).worker.processed := by
  refine hr.relates (R := fun e e' => (e.shards i).worker.processed <+: (e'.shards i).worker.processed)
    (fun _ => List.prefix_refl _) (fun _ _ _ => List.IsPrefix.trans) fun e a e' hn => ?_
  rcases State.next_shard hn i with hs | hs
  · rw [hs]
  · exact hs.processed

theorem ShardStep.recorded {e : State κ} {a : Act κ} {s' : Shard κ}
    (h : Recorded (e.shards i).worker) (hs : ShardStep e i a s') : Recorded s'.worker := by
  cases hs with
  | work hn => exact h.step (Worker.step_cases hn)
  | _ => exact ⟨h.ledger,h.decided⟩

theorem reachable_recorded {e : State κ} (h : system.Reachable e) (i : ShardId) :
    Recorded (e.shards i).worker := by
  refine h.invariant (I := fun e => ∀ i, Recorded (e.shards i).worker) ?_ ?_ i
  · rintro e ⟨_,_,_,_,rfl⟩ i
    exact startWorker_recorded
  · intro e a e' ih hn i
    rcases State.next_shard hn i with hs | hs
    · rw [hs]; exact ih i
    · exact hs.recorded (ih i)

end Steps
end Flashsale.Engine
