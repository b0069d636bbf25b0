import Flashsale.Ledger
import Flashsale.Server
import Mathlib
set_option autoImplicit false

namespace Flashsale.Server
open Transition Cache Engine Backend Strconv
variable {κ : Type}

/-- The header writes a number from 1 to 18000000000000000000; where it is
missing, the number drawn is not 0. -/
def Plain (header : List Char) (random : UInt64) : Prop :=
  if header = [] then int63 random ≠ 0
  else (∀ c ∈ header, c.isDigit) ∧ 0 < value header ∧ value header ≤ 18000000000000000000

/-- `Process` looks at the stock for the request, acknowledges no barrier, and
reports a success only with the quantity deducted. -/
structure Decides (w : Worker) (sh : Shared κ) (req : Request) (sh' : Shared κ) (w' : Worker) :
    Prop where
  decided : ∃ res, w'.decided = w.decided ++ [res] ∧ res.payload = req.payload ∧
    w'.pc.result = some res
  barrier : sh'.barrierReached = sh.barrierReached
  sold : ∀ res, w'.pc.result = some res → res.status = 1 → ∃ stock,
    w.inventory req.skuId = some stock ∧ req.qty ≤ stock ∧
      w'.inventory = Function.update w.inventory req.skuId (some (stock - req.qty))

section Header
variable {header : List Char} {random : UInt64}

theorem int63_le (random : UInt64) : int63 random ≤ benchmarkLimit := by
  rw [UInt64.le_iff_toNat_le]
  have hle : (int63 random).toNat ≤ 0x7FFFFFFFFFFFFFFF := by
    rw [int63,UInt64.toNat_and]
    exact Nat.and_le_right
  exact hle.trans (by decide)

theorem plain_iff : Plain header random ↔
    0 < headerId header random ∧ headerId header random ≤ benchmarkLimit := by
  by_cases hempty : header = []
  · simp [Plain,headerId,hempty,int63_le,UInt64.pos_iff_ne_zero]
  have hlimit : benchmarkLimit < maxUint64 := by decide
  have hval : benchmarkLimit.toNat = 18000000000000000000 := rfl
  simp only [Plain,headerId,if_neg hempty]
  constructor
  · rintro ⟨hdig,hpos,hle⟩
    have htoNat : (value header).toUInt64.toNat = value header := by
      rw [Nat.toUInt64_eq,UInt64.toNat_ofNat',Nat.mod_eq_of_lt (by omega)]
    have hpos' : 0 < (value header).toUInt64 := by
      rw [UInt64.lt_iff_toNat_lt,htoNat]
      exact hpos
    have hle' : (value header).toUInt64 ≤ benchmarkLimit := by
      rw [UInt64.le_iff_toNat_le,htoNat,hval]
      exact hle
    have heq := (parseUint_eq_iff hpos' (UInt64.lt_of_le_of_lt hle' hlimit)).mpr
      ⟨hempty,hdig,htoNat.symm⟩
    rw [heq]
    exact ⟨hpos',hle'⟩
  · rintro ⟨hpos,hle⟩
    obtain ⟨-,hdig,hv⟩ := (parseUint_eq_iff hpos (UInt64.lt_of_le_of_lt hle hlimit)).mp rfl
    rw [hv]
    exact ⟨hdig,UInt64.lt_iff_toNat_lt.mp hpos,UInt64.le_iff_toNat_le.mp hle⟩

instance (header : List Char) (random : UInt64) : Decidable (Plain header random) :=
  decidable_of_iff _ plain_iff.symm

end Header

section Process
variable {w w' : Worker} {sh sh' : Shared κ} {req : Request} {items : List Request} {count : Nat}
  {uninit : CSeckillResult}

theorem decides_iff (hs : ProcessStep w sh req items count uninit sh' w') :
    Decides w sh req sh' w' ↔
      0 < req.requestId ∧ req.requestId ≤ benchmarkLimit ∧ req.requestId ∉ w.seenRequests := by
  have hundecided : w'.decided = w.decided → ¬ Decides w sh req sh' w' := by
    rintro hsame ⟨⟨res,hres,-⟩,-,-⟩
    simp [hsame] at hres
  cases hs with
  | warmUp id =>
    refine iff_of_false (hundecided rfl) ?_
    simp [id]
  | barrier id =>
    refine iff_of_false (hundecided rfl) ?_
    rintro ⟨-,hle,-⟩
    rw [id] at hle
    exact absurd hle (by decide)
  | benchmark id limit =>
    refine iff_of_false (hundecided rfl) ?_
    rintro ⟨-,hle,-⟩
    exact absurd limit (UInt64.not_lt.mpr hle)
  | duplicate id limit seen =>
    refine iff_of_false (hundecided rfl) ?_
    rintro ⟨-,-,hfresh⟩
    exact hfresh seen
  | decided id limit fresh =>
    refine iff_of_true ⟨⟨_,rfl,rfl,rfl⟩,rfl,fun res hres hone => ?_⟩
      ⟨UInt64.pos_iff_ne_zero.mpr id,limit,fresh⟩
    cases hres
    change (w.deduct req).1 = 1 at hone
    change ∃ stock, _ ∧ _ ∧ (w.deduct req).2.inventory = _
    cases hstock : w.inventory req.skuId with
    | none => simp [Worker.deduct,hstock] at hone
    | some stock =>
      by_cases hq : req.qty ≤ stock
      · exact ⟨stock,rfl,hq,by simp [Worker.deduct,hstock,hq]⟩
      · simp [Worker.deduct,hstock,hq] at hone

end Process

section Server
variable [DecidableEq κ] {s s' : State κ} {i : ShardId} {inp : WorkerInput} {req : Request}
  {items : List Request} {count : Nat} {http : HttpRequest}

/-- A request from outside reaches the stock decision exactly if its header is
plain and its id is not among those the worker has seen. -/
theorem decides_request_iff
    (hpc : (s.engine.shards i).worker.pc = .process (req :: items) count)
    (hreq : req.payload = creqOf http.member)
    (hn : system.next s (.engine (.work i inp)) = some s') :
    Decides (s.engine.shards i).worker s.engine.shared req s'.engine.shared
        (s'.engine.shards i).worker ↔
      Plain http.requestId http.requestRandom ∧
        http.member.reqId ∉ (s.engine.shards i).worker.seenRequests := by
  obtain ⟨e,he,rfl⟩ := Option.map_eq_some_iff.mp hn
  obtain ⟨⟨sh,w⟩,hw,rfl⟩ := Option.map_eq_some_iff.mp he
  simp only [Worker.step,hpc,Option.some.injEq] at hw
  have hid : req.requestId = http.member.reqId := congrArg (·.2.2.2) hreq
  simp only [State.setEngine,State.setShard_shards_self]
  change Decides _ _ req sh w ↔ _
  rw [decides_iff (Worker.process_step hw),hid,plain_iff]
  exact and_assoc.symm

end Server

def buyWith (requestId : List Char) : HttpRequest where
  guestId := ['7']
  requestId := requestId
  skuId := 999
  qty := 1
  guestRandom := 0
  requestRandom := 0

def buyRun (http : HttpRequest) : List (Act Nat) :=
  [.receive http 0,.enqueue 0 http.member] ++ List.replicate 11 (.engine (.client 0 1 false)) ++
    [.enqueued 0 http.member] ++ List.replicate 12 (.engine (.dispatch 1 3 4 false)) ++
    List.replicate 7 (.engine (.work 1 default))

def shopStart : State Nat := start warmStock (initEngine 0 0 0 0)

def taken (http : HttpRequest) : Request :=
  { creq http.member with
    tsIngress := 1, tsPopMpmc := 3, tsPushSpsc := 4, tsPopSpsc := (default : WorkerInput).now }

def takeRun : List (Act Nat) := [.engine (.work 1 default)]

def plainState : State Nat := (system.exec shopStart (buyRun (buyWith ['5']))).get (by decide +kernel)

def decidedState : State Nat := (system.exec plainState takeRun).get (by decide +kernel)

theorem decides_request_plain : Decides (plainState.engine.shards 1).worker
    plainState.engine.shared (taken (buyWith ['5']))
    decidedState.engine.shared (decidedState.engine.shards 1).worker :=
  have hn : system.next plainState (.engine (.work 1 default)) = some decidedState :=
    System.next_of_exec (Option.some_get _).symm
  have hpc : (plainState.engine.shards 1).worker.pc = .process [taken (buyWith ['5'])] 1 := by decide +kernel
  (decides_request_iff hpc (show _ = creqOf (buyWith ['5']).member by decide +kernel) hn).mpr
    ⟨by decide +kernel,by decide +kernel⟩

def forged : HttpRequest := buyWith (List.replicate 23 '9')

def forgedState : State Nat := (system.exec shopStart (buyRun forged)).get (by decide +kernel)

def barrierState : State Nat := (system.exec forgedState takeRun).get (by decide +kernel)

/-- The request is answered with 202 and its item deducted, and the worker takes
it for a barrier. -/
theorem forged_barrier :
    system.Run shopStart (buyRun forged ++ takeRun) barrierState ∧
    barrierState.answers = [(forged.member,.queued barrierId)] ∧
    (barrierState.gates 999).stock = some 99 ∧
    (barrierState.engine.shards 1).worker.processed.map (·.payload) = [creqOf forged.member] ∧
    (barrierState.engine.shards 1).worker.decided = [] ∧
    shopStart.engine.shared.barrierReached = 0 ∧
    barrierState.engine.shared.barrierReached = 1 ∧
    ¬ Decides (forgedState.engine.shards 1).worker forgedState.engine.shared (taken forged)
      barrierState.engine.shared (barrierState.engine.shards 1).worker := by
  have h₁ : system.Run shopStart (buyRun forged) forgedState :=
    System.run_of_exec (Option.some_get _).symm
  have h₂ : system.Run forgedState takeRun barrierState :=
    System.run_of_exec (Option.some_get _).symm
  have hnone : (barrierState.engine.shards 1).worker.decided = [] := by decide +kernel
  refine ⟨h₁.append h₂,by decide +kernel,by decide +kernel,by decide +kernel,hnone,rfl,
    by decide +kernel,?_⟩
  rintro ⟨⟨res,hres,-⟩,-,-⟩
  simp [hnone] at hres

end Flashsale.Server
