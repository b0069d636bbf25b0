import Flashsale.EngineClients
import Mathlib.Data.Finset.Basic
set_option autoImplicit false

/-!
The engine as its callers see it: requests go in, and each leads to at most one
result, which carries the fields the request came with.
-/

namespace Flashsale.Engine

def CSeckillResult.payload (res : CSeckillResult) : Payload :=
  (res.skuId,res.qty,res.guestId,res.requestId)

def Payload.requestId (r : Payload) : UInt64 := r.2.2.2

/-- `accepted` are the requests not decided yet, `results` those not polled yet. -/
structure Abstract where
  accepted : Multiset Payload
  decided : Finset UInt64
  results : Multiset CSeckillResult

def Abstract.empty : Abstract where
  accepted := 0
  decided := ∅
  results := 0

/-- What `Process` may publish for a request. -/
def Outcome (decided : Finset UInt64) (r : Payload) : Option CSeckillResult → Prop
  | none => r.requestId = 0 ∨ r.requestId = barrierId ∨ r.requestId ∈ decided
  | some res =>
      res.requestId = r.requestId ∧ r.requestId ≠ 0 ∧ r.requestId ≠ barrierId ∧
      if r.requestId > benchmarkLimit then res.status = 1
      else res.payload = r ∧ (res.status = 0 ∨ res.status = 1 ∨ res.status = 2)

instance (decided : Finset UInt64) (r : Payload) (out : Option CSeckillResult) :
    Decidable (Outcome decided r out) := by
  cases out <;> unfold Outcome <;> infer_instance

def Abstract.accept (e : Abstract) (r : Payload) : Abstract :=
  { e with accepted := r ::ₘ e.accepted }

def Abstract.process (e : Abstract) (r : Payload) (out : Option CSeckillResult) :
    Option Abstract :=
  if r ∈ e.accepted ∧ Outcome e.decided r out then
    some {
      accepted := e.accepted.erase r
      decided := insert r.requestId e.decided
      results := out.elim e.results (· ::ₘ e.results) }
  else none

def Abstract.poll (e : Abstract) (res : CSeckillResult) : Option Abstract :=
  if res ∈ e.results then some { e with results := e.results.erase res } else none

end Flashsale.Engine
