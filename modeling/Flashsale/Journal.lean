import Flashsale.Ledger
set_option autoImplicit false

namespace Flashsale.Engine
open Transition
variable {κ : Type}

def WalRecord.payload (r : WalRecord) : Payload := (r.skuId,r.qty,r.guestId,r.requestId)

def Worker.sold (w : Worker) : List Payload := (w.decided.filter (·.status = 1)).map (·.payload)

/-- The sale that is not in the journal yet. -/
def Worker.unjournaled (w : Worker) : Option Payload :=
  match w.pc with
  | .flag req res _ _ => if res.status = 1 then some req.payload else none
  | _ => none

def takeFrom (inventory : Int64 → Option Int32) (r : Payload) : Int64 → Option Int32 :=
  Function.update inventory r.1 ((inventory r.1).map (· - r.2.1))

def replay (inventory : Int64 → Option Int32) (rs : List Payload) : Int64 → Option Int32 :=
  rs.foldl takeFrom inventory

/-- `old` are the records the journal held when the worker was constructed. -/
structure Journaled (old : List Payload) (w : Worker) : Prop where
  records : w.wal.map WalRecord.payload ++ w.unjournaled.toList = old ++ w.sold
  inventory : w.inventory = replay initialInventory w.sold

def startOn (wal : List WalRecord) : Worker := { startWorker with wal := wal }

theorem startOn_journaled (wal : List WalRecord) :
    Journaled (wal.map WalRecord.payload) (startOn wal) := ⟨rfl,rfl⟩

/-- What becomes of a worker constructed on the journal `wal`: by its own steps,
whatever they find in what it shares, and by those of its dispatcher and of `Stop`. -/
inductive Worker.Ran (wal : List WalRecord) : Worker → Prop where
  | start : Worker.Ran wal (startOn wal)
  | step {κ : Type} [DecidableEq κ] {w w' : Worker} {sh sh' : Shared κ} {i : ShardId}
      {inp : WorkerInput} (ran : Worker.Ran wal w) (next : w.step sh i inp = some (sh',w')) :
      Worker.Ran wal w'
  | outside {w : Worker} (q : SpscQueue.State Request) (running : Bool) (ran : Worker.Ran wal w) :
      Worker.Ran wal { w with queue := q, running := running }

section Steps
variable {w w' : Worker} {sh sh' : Shared κ} {req : Request} {items : List Request} {count : Nat}
  {uninit : CSeckillResult} {i : ShardId} {inp : WorkerInput} {old : List Payload}

theorem Worker.decide_sold (w : Worker) (req : Request) (items : List Request) (count : Nat) :
    (w.decide req items count).sold =
      w.sold ++ if (w.deduct req).1 = 1 then [req.payload] else [] := by
  by_cases hs : (w.deduct req).1 = 1 <;> simp [Worker.sold,Worker.decide,List.filter_append,hs]

theorem Worker.deduct_inventory (w : Worker) (req : Request) : (w.deduct req).2.inventory =
    if (w.deduct req).1 = 1 then takeFrom w.inventory req.payload else w.inventory := by
  unfold Worker.deduct
  cases hstock : w.inventory req.skuId with
  | none => simp
  | some stock =>
    by_cases hq : req.qty ≤ stock <;> simp [hq,takeFrom,Request.payload,hstock]

theorem Worker.deduct_eq_one_iff (w : Worker) (req : Request) :
    (w.deduct req).1 = 1 ↔ ∃ stock ∈ w.inventory req.skuId, req.qty ≤ stock := by
  unfold Worker.deduct
  cases hstock : w.inventory req.skuId with
  | none => simp
  | some stock => by_cases hq : req.qty ≤ stock <;> simp [hq]

theorem replay_concat (inventory : Int64 → Option Int32) (rs : List Payload) (r : Payload) :
    replay inventory (rs ++ [r]) = takeFrom (replay inventory rs) r := by simp [replay]

theorem ProcessStep.journaled (h : Journaled old w) (hpc : w.pc = .process (req :: items) count)
    (hs : ProcessStep w sh req items count uninit sh' w') : Journaled old w' := by
  have hrecords := h.records
  simp only [Worker.unjournaled,hpc,Option.toList_none,List.append_nil] at hrecords
  cases hs with
  | warmUp id | barrier id | benchmark id limit | duplicate id limit seen =>
    exact ⟨by simpa [Worker.take,Worker.unjournaled,Worker.sold] using hrecords,h.inventory⟩
  | decided id limit fresh =>
    have hsold := w.decide_sold req items count
    refine ⟨?_,?_⟩
    · rw [hsold]
      by_cases hs : (w.deduct req).1 = 1 <;>
        simp [Worker.decide,Worker.take,Worker.unjournaled,hs,hrecords]
    · rw [hsold]
      change (w.deduct req).2.inventory = _
      rw [w.deduct_inventory]
      by_cases hs : (w.deduct req).1 = 1
      · simp [hs,replay_concat,← h.inventory]
      · simpa [hs] using h.inventory

variable [DecidableEq κ]

theorem Journaled.step (h : Journaled old w) (hs : WorkStep w sh i inp sh' w') :
    Journaled old w' := by
  cases hs with
  | process pc step => exact step.journaled h pc
  | @flag req res items count pc =>
    have hrecords := h.records
    simp only [Worker.unjournaled,pc] at hrecords
    by_cases hs : res.status = 1
    · simp only [Worker.journal,hs,if_true] at hrecords ⊢
      refine ⟨?_,h.inventory⟩
      simpa [Worker.writeToWal,Worker.unjournaled,Worker.sold,WalRecord.payload,Request.payload]
        using hrecords
    · simp only [Worker.journal,hs,if_false] at hrecords ⊢
      exact ⟨by simpa [Worker.unjournaled,Worker.sold] using hrecords,h.inventory⟩
  | empty recheck pc ret =>
    have hrecords := h.records
    simp only [Worker.unjournaled,pc] at hrecords
    refine ⟨?_,h.inventory⟩
    cases recheck <;> simpa [Worker.unjournaled,Worker.sold] using hrecords
  | ask recheck pc running next =>
    have hrecords := h.records
    refine ⟨?_,h.inventory⟩
    cases recheck <;> simpa [pc,Worker.unjournaled,Worker.sold] using hrecords
  | publish pc next => exact h
  | taken _ pc | consume _ pc | again pc | busy pc | idle pc | offer pc | published pc | refused pc
  | addCount pc =>
    have hrecords := h.records
    simp only [Worker.unjournaled,pc] at hrecords
    exact ⟨by simpa [Worker.unjournaled,Worker.sold] using hrecords,h.inventory⟩

theorem Worker.Ran.journaled {wal : List WalRecord} (h : w.Ran wal) :
    Journaled (wal.map WalRecord.payload) w := by
  induction h with
  | start => exact startOn_journaled wal
  | step _ next ih => exact ih.step (Worker.step_cases next)
  | outside q running _ ih => exact ⟨ih.records,ih.inventory⟩

theorem ShardStep.ran {e : State κ} {a : Act κ} {s' : Shard κ} {wal : List WalRecord}
    (h : (e.shards i).worker.Ran wal) (hs : ShardStep e i a s') : s'.worker.Ran wal := by
  cases hs with
  | work hn => exact .step h hn
  | pop _ _ _ _ _ _ _ | retry _ _ _ _ _ _ | push _ _ _ _ _ | stop _ => exact .outside _ _ h
  | _ => exact h

/-- `InitEngine` where earlier sessions left journals. -/
def initEngineOn (wals : ShardId → List WalRecord) (sold enq deq barrier : UInt64) : State κ :=
  { initEngine sold enq deq barrier with
    shards := fun i => { startShard with worker := startOn (wals i) } }

theorem run_ran {wals : ShardId → List WalRecord} {sold enq deq barrier : UInt64}
    {as : List (Act κ)} {e : State κ}
    (h : system.Run (initEngineOn wals sold enq deq barrier) as e) (i : ShardId) :
    (e.shards i).worker.Ran (wals i) := by
  refine h.invariant (I := fun e => ∀ i, (e.shards i).worker.Ran (wals i)) ?_ (fun _ => .start) i
  intro e a e' ih hn i
  rcases State.next_shard hn i with hs | hs
  · rw [hs]; exact ih i
  · exact hs.ran (ih i)

theorem reachable_ran {e : State κ} (h : system.Reachable e) (i : ShardId) :
    (e.shards i).worker.Ran [] := by
  obtain ⟨_,as,⟨sold,enq,deq,barrier,rfl⟩,hr⟩ := h
  exact run_ran (show system.Run (initEngineOn (fun _ => []) sold enq deq barrier) as e from hr) i

end Steps
end Flashsale.Engine
