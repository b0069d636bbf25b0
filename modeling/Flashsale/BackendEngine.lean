import Flashsale.AbstractRuns
import Flashsale.Backend
set_option autoImplicit false

namespace Flashsale.Backend
open Transition Engine
variable {ι κ : Type} [DecidableEq ι] [DecidableEq κ]

/-- The process can take its part in what its engine does: a handler has its request
in `EnqueueRequest`, or a result worker is in `PollResult`. -/
def Instance.Ready (x : Instance) : Abstract.Act → Prop
  | .accept r => ∃ m, .enqueue m ∈ x.handlers ∧ creqOf m = r
  | .process _ _ => True
  | .poll _ => .poll ∈ x.workers

section Steps
variable {s : State ι} {p : ι} {x : Instance} {b : Abstract.Act} {e : Abstract}

theorem Instance.next_of_ready {w : World} (hb : Abstract.system.next x.engine b = some e)
    (hready : x.Ready b) :
    ∃ a w' x', x.next w a = some (w',some x') ∧ x'.engine = e := by
  cases b with
  | accept r =>
    obtain ⟨m,hm,rfl⟩ := hready
    refine ⟨.handle (.enqueue m) .answered 1 0,_,_,if_pos hm,?_⟩
    exact Option.some.inj hb
  | process r out =>
    have hb : x.engine.process r out = some e := hb
    exact ⟨.process r out,_,_,by simp only [Instance.next,Instance.process,hb]; rfl,rfl⟩
  | poll res =>
    have hb : x.engine.poll res = some e := hb
    have hpoll : .poll ∈ x.workers := hready
    exact ⟨.poll res,_,_,by simp only [Instance.next,Instance.poll,if_pos hpoll,hb]; rfl,rfl⟩

/-- A process steps as the stepwise engine does, whose abstraction its own engine is. -/
theorem State.follows_engine {e e' : Engine.State κ} {a : Engine.Act κ}
    (h : Engine.system.Reachable e) (hn : Engine.system.next e a = some e')
    (hx : s.instances p = some x) (he : x.engine = e.abstract)
    (hready : ∀ b, e.Sees a b → x.Ready b) :
    e'.abstract = e.abstract ∨ ∃ act s' x', system.next s (p,act) = some s' ∧
      s'.instances p = some x' ∧ x'.engine = e'.abstract := by
  refine (State.next_abstract h hn).imp_right fun ⟨b,hsees,hb⟩ => ?_
  rw [← he] at hb
  obtain ⟨act,w',x',hact,he'⟩ := Instance.next_of_ready (w := s.world) hb (hready b hsees)
  refine ⟨act,{ world := w', instances := Function.update s.instances p (some x') },x',?_,?_,he'⟩
  · change State.next s (p,act) = _
    simp only [State.next,hx,hact]
    rfl
  · simp

end Steps
end Flashsale.Backend
