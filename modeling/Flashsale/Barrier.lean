import Flashsale.ClientSteps
import Flashsale.Flow
import Flashsale.ResultQueue
import Mathlib.Algebra.Order.BigOperators.Group.Finset
set_option autoImplicit false

namespace Flashsale.Engine
open Transition
variable {κ : Type}

def isBarrier (r : Payload) : Bool := r.2.2.2 = barrierId

/-- The barriers accepted and not acknowledged yet. -/
def State.barriers (e : State κ) : Nat := ∑ i, (e.shards i).pending.countP isBarrier

/-- The call holds `inside`. -/
def Call.Draining : Call → Prop
  | .enqueue p | .enqueuing p => p.purpose = .barrier
  | .resetBarrier _ | .awaitBarrier | .awaitRunning | .leaveDrain => True
  | _ => False

def Call.Unmarked : Call → Prop
  | .idle | .requestTestRunning _ | .batchTestRunning _ | .warmUpTestRunning | .testFlag _ => True
  | .enterDrain _ | .resetBarrier _ | .polling => True
  | .enqueue p | .enqueuing p | .count p => p.purpose ≠ .barrier
  | _ => False

structure Guarded (e : State κ) : Prop where
  guard : ∀ c, (e.calls c).Draining → e.inside = true
  unique : ∀ c c', (e.calls c).Draining → (e.calls c').Draining → c = c'
  counted : ∀ c p, e.calls c = .count p → p.purpose = .once
  unmarked : ∀ c, (e.calls c).Unmarked → ∀ i k, (e.shards i).queue.pc (.client .barrier c k) = .idle

theorem initEngine_guarded (sold enq deq barrier : UInt64) :
    Guarded (initEngine sold enq deq barrier : State κ) where
  guard _ h := h.elim
  unique _ _ h := h.elim
  counted _ _ h := by cases h
  unmarked _ _ _ _ := rfl

section Guarded
variable [DecidableEq κ] {e e' : State κ} {a : Act κ} {c : κ}

/-- A step moves at most one call, which injects barriers only inside a drain. -/
inductive CallStep (e e' : State κ) : Prop where
  | stay (calls : e'.calls = e.calls) (inside : e'.inside = e.inside)
  | move {c : κ} {p : Call} (calls : e'.calls = Function.update e.calls c p)
      (inside : e'.inside = e.inside) (draining : p.Draining → (e.calls c).Draining)
      (unmarked : p.Unmarked → (e.calls c).Unmarked)
      (counted : ∀ p', p = .count p' → p'.purpose = .once)
  | enter {c : κ} {tries : Nat} (pc : e.calls c = .enterDrain tries) (free : e.inside = false)
      (calls : e'.calls = Function.update e.calls c (.resetBarrier tries))
      (inside : e'.inside = true)
  | leave {c : κ} (pc : e.calls c = .leaveDrain)
      (calls : e'.calls = Function.update e.calls c (.ret 0)) (inside : e'.inside = false)

theorem ClientStep.callStep {now : Int64} {spurious : Bool} (hc : ∀ p, e.calls c = .count p → p.purpose = .once)
    (h : ClientStep e c now spurious e') : CallStep e e' := by
  have hmove : ∀ {x : State κ} {p : Call}, x.calls = e.calls → x.inside = e.inside →
      (p.Draining → (e.calls c).Draining) → (p.Unmarked → (e.calls c).Unmarked) →
      (∀ p', p = .count p' → p'.purpose = .once) → CallStep e (x.setCall c p) := by
    intro x p hx hin hd hu hp
    exact .move (by rw [State.setCall,hx]) hin hd hu hp
  cases h with
  | enter pc inside => exact .enter pc inside rfl rfl
  | leave pc => exact .leave pc rfl rfl
  | access pc todo next | poll pc next => exact .stay rfl rfl
  | requestTest pc | batchTest pc | warmUpTest pc =>
    refine hmove rfl rfl ?_ ?_ ?_ <;> cases e.running <;> simp [pc,Call.Draining,Call.Unmarked]
  | @finish p pc todo =>
    refine hmove rfl rfl ?_ ?_ ?_ <;>
      cases hp : p.purpose <;> simp [Push.done,hp,pc,Call.Draining,Call.Unmarked]
  | @accepted p i req data rest t pc todo ret =>
    refine hmove rfl rfl ?_ ?_ ?_ <;>
      cases hp : p.purpose <;> simp [Push.after,hp,pc,Call.Draining,Call.Unmarked]
  | @count p pc =>
    have hp := hc p pc
    refine hmove rfl rfl ?_ ?_ ?_ <;> simp [Push.after,hp,pc,Call.Draining,Call.Unmarked]
  | soldOut pc _ | available pc _ | attempt pc _ _ | full pc _ _ | reentered pc _ | reset pc
  | reached pc _ | waiting pc _ | stillRunning pc _ | stopped pc _ | polled pc _ =>
    refine hmove rfl rfl ?_ ?_ ?_ <;> simp [pc,Push.after,Call.Draining,Call.Unmarked]

theorem State.next_call (hc : ∀ c p, e.calls c = .count p → p.purpose = .once)
    (hn : e.next a = some e') : CallStep e e' := by
  cases a with
  | client c now spurious => exact (State.client_cases hn).callStep (hc c)
  | start c f =>
    simp only [State.next,State.start] at hn
    split at hn
    · rename_i hidle
      cases f with
      | pollResult =>
        obtain ⟨q,-,rfl⟩ := Option.map_eq_some_iff.mp hn
        refine .move (p := .polling) rfl rfl ?_ ?_ ?_ <;> simp [hidle,Call.Draining,Call.Unmarked]
      | _ =>
        cases hn
        refine .move rfl rfl ?_ ?_ ?_ <;> simp [hidle,Call.Draining,Call.Unmarked]
    · cases hn
  | dispatch i pop push spurious =>
    refine .stay (State.dispatch_calls hn) ?_
    simp only [State.next,State.dispatch] at hn
    repeat' split at hn
    all_goals first
      | (obtain ⟨q,-,rfl⟩ := Option.map_eq_some_iff.mp hn; rfl)
      | (cases hn; rfl)
      | cases hn
  | work i inp =>
    obtain ⟨⟨sh,w⟩,-,rfl⟩ := Option.map_eq_some_iff.mp hn
    exact .stay rfl rfl
  | stop =>
    refine .stay (State.stopEngine_calls hn) ?_
    simp only [State.next,State.stopEngine] at hn
    repeat' split at hn
    all_goals cases hn
    all_goals rfl

theorem CallStep.unmarked (h : CallStep e e') (hc : (e'.calls c).Unmarked) : (e.calls c).Unmarked := by
  cases h with
  | stay calls inside => rw [← calls]; exact hc
  | @move c₀ p calls inside draining unmarked counted =>
    by_cases heq : c = c₀
    · subst heq
      exact unmarked (by simpa [calls] using hc)
    · simpa [calls,heq] using hc
  | @enter c₀ tries pc free calls inside =>
    by_cases heq : c = c₀
    · subst heq
      simp [pc,Call.Unmarked]
    · simpa [calls,heq] using hc
  | @leave c₀ pc calls inside =>
    by_cases heq : c = c₀
    · subst heq
      simp [calls,Call.Unmarked] at hc
    · simpa [calls,heq] using hc

theorem ShardStep.unmarked {i : ShardId} {s' : Shard κ} (hs : ShardStep e i a s')
    (hc : (e.calls c).Unmarked) {k : Nat} (hq : (e.shards i).queue.pc (.client .barrier c k) = .idle) :
    s'.queue.pc (.client .barrier c k) = .idle := by
  rw [hs.client_pc fun p hp => ?_]
  · exact hq
  · rcases hp with hp | hp <;> simpa [hp,Call.Unmarked] using hc

theorem Guarded.next (h : Guarded e) (hn : e.next a = some e') : Guarded e' := by
  have hstep := State.next_call h.counted hn
  have hunmarked : ∀ c, (e'.calls c).Unmarked → ∀ i k,
      (e'.shards i).queue.pc (.client .barrier c k) = .idle := by
    intro c hc i k
    have hq := h.unmarked c (hstep.unmarked hc) i k
    rcases State.next_shard hn i with hs | hs
    · rw [hs]; exact hq
    · exact hs.unmarked (hstep.unmarked hc) hq
  cases hstep with
  | stay calls inside =>
    exact ⟨by rw [calls,inside]; exact h.guard,by rw [calls]; exact h.unique,
      by rw [calls]; exact h.counted,hunmarked⟩
  | @move c₀ p calls inside draining unmarked counted =>
    have hdrain : ∀ c, (e'.calls c).Draining → (e.calls c).Draining := by
      intro c hc
      by_cases heq : c = c₀
      · subst heq
        exact draining (by simpa [calls] using hc)
      · simpa [calls,heq] using hc
    refine ⟨fun c hc => ?_,fun c c' hc hc' => h.unique c c' (hdrain c hc) (hdrain c' hc'),
      fun c p' hp => ?_,hunmarked⟩
    · rw [inside]
      exact h.guard c (hdrain c hc)
    · by_cases heq : c = c₀
      · subst heq
        exact counted p' (by simpa [calls] using hp)
      · exact h.counted c p' (by simpa [calls,heq] using hp)
  | @enter c₀ tries pc free calls inside =>
    have hother : ∀ c, c ≠ c₀ → ¬ (e'.calls c).Draining := by
      intro c hne hc
      rw [calls,Function.update_of_ne hne] at hc
      rw [h.guard c hc] at free
      cases free
    refine ⟨fun _ _ => inside,fun c c' hc hc' => ?_,fun c p' hp => ?_,hunmarked⟩
    · rw [not_imp_not.mp (hother c) hc,not_imp_not.mp (hother c') hc']
    · by_cases heq : c = c₀
      · subst heq
        simp [calls] at hp
      · exact h.counted c p' (by simpa [calls,heq] using hp)
  | @leave c₀ pc calls inside =>
    have hnone : ∀ c, ¬ (e'.calls c).Draining := by
      intro c hc
      by_cases heq : c = c₀
      · subst heq
        simp [calls,Call.Draining] at hc
      · rw [calls,Function.update_of_ne heq] at hc
        exact heq (h.unique c c₀ hc (by simp [pc,Call.Draining]))
    refine ⟨fun c hc => absurd hc (hnone c),fun c _ hc => absurd hc (hnone c),
      fun c p' hp => ?_,hunmarked⟩
    by_cases heq : c = c₀
    · subst heq
      simp [calls] at hp
    · exact h.counted c p' (by simpa [calls,heq] using hp)

end Guarded
end Flashsale.Engine
