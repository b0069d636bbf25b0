import Flashsale.BackendSteps
set_option autoImplicit false

namespace Flashsale.Backend
open Cache Engine Transition

/-- Each request deducted and not rolled back has its row or is still pending. -/
def Recoverable (w : World) : Prop :=
  ∀ skuId, ∀ m ∈ (w.redis.gates skuId).live, rowOf m ∈ w.orders ∨ m ∈ (w.redis.gates skuId).members

/-- A command that takes a member out of the pending set finds the row of a
request it leaves deducted. -/
def Settles (w : World) : Command → Prop
  | .zrem skuId ms => ∀ m ∈ ms, m ∈ (w.redis.gates skuId).live → rowOf m ∈ w.orders
  | .rollback m =>
      let g := w.redis.gates m.skuId
      m.userId ∈ g.bought → incrBy g.stock m.luaQty ≠ none → m ∈ g.live.erase m →
        rowOf m ∈ w.orders
  | _ => True

section Commands
variable {w w' : World} {c : Command}

theorem Recoverable.run (h : Recoverable w) (hc : Settles w c)
    (hr : w'.redis = (w.redis.run c).2) (ho : w'.orders = w.orders) : Recoverable w' := by
  intro skuId x hx
  rw [ho]
  rw [hr] at hx ⊢
  cases w.redis.run_gate c skuId with
  | deducted hk hd =>
    rcases hd.mem_live hx with rfl | hx
    · exact .inr ((hd.members x).mpr (.inl rfl))
    · exact (h skuId x hx).imp_right fun hm => (hd.members x).mpr (.inr hm)
  | @rolledBack m hk hb =>
    subst hk
    rw [hb.live] at hx
    by_cases he : x = m
    · subst he
      obtain ⟨left,hleft,-⟩ := hb.stock
      exact .inl (hc hb.user (by simp [hleft]) hx)
    · refine (h _ x (Multiset.mem_of_mem_erase hx)).imp_right fun hm => ?_
      exact (hb.members x).mpr ⟨hm,he⟩
  | broken _ _ _ hg =>
    rw [hg] at hx ⊢
    exact h skuId x hx
  | @removed ms hg =>
    rw [hg] at hx ⊢
    rcases h skuId x hx with hrow | hm
    · exact .inl hrow
    · by_cases hms : x ∈ ms
      · exact .inl (hc x hms hx)
      · exact .inr (Gate.mem_zrem.mpr ⟨hm,hms⟩)
  | same hg =>
    rw [hg] at hx ⊢
    exact h skuId x hx

theorem Recoverable.settles (h : Recoverable w') (hr : w'.redis = (w.redis.run c).2)
    (ho : w'.orders = w.orders) : Settles w c := by
  cases c with
  | zrem skuId ms =>
    intro m hm hlive
    have hgate : w'.redis.gates skuId = (w.redis.gates skuId).zrem ms := by
      rw [hr]
      exact Redis.setGate_self _ _ _
    have hx := h skuId m (by rw [hgate]; exact hlive)
    rw [hgate,ho,Gate.mem_zrem] at hx
    exact hx.resolve_right fun hp => hp.2 hm
  | rollback m =>
    intro hu hincr hlive
    have hgate : w'.redis.gates m.skuId = ((w.redis.gates m.skuId).rollback m).2 := by
      rw [hr]
      exact Redis.setGate_self _ _ _
    rcases (w.redis.gates m.skuId).rollback_cases m with ⟨-,hb⟩ | ⟨-,hu',-⟩ | ⟨-,-,hi,-⟩
    · have hx := h m.skuId m (by rw [hgate,hb.live]; exact hlive)
      rw [hgate,ho,hb.members] at hx
      exact hx.resolve_right fun hp => hp.2 rfl
    · exact absurd hu hu'
    · exact absurd hi hincr
  | deduct _ _ | sadd _ | rpush _ | setnx _ => trivial

end Commands

theorem start_live {ι : Type} (stock : Int64 → Option Int64) (skus : Finset Int64)
    (orders : List Order) (skuId : Int64) :
    ((start stock skus orders : State ι).world.redis.gates skuId).live = 0 := by
  simp only [start]
  cases stock skuId <;> rfl

section Steps
variable {ι : Type} [DecidableEq ι] {s t : State ι} {a : ι × Act}

def InsertedFirst (s : State ι) (a : ι × Act) : Prop :=
  ∀ x c, s.instances a.1 = some x → x.command a.2 = some c → Settles s.world c

theorem Recoverable.next (h : Recoverable s.world) (hp : InsertedFirst s a)
    (hn : s.next a = some t) : Recoverable t.world := by
  obtain ⟨x,y,hx,hstep,-⟩ := State.next_cases hn
  obtain ⟨hredis,horders,-⟩ := Instance.next_outside hstep
  cases hc : x.command a.2 with
  | none =>
    rw [hc] at hredis
    intro skuId m hm
    rw [hredis] at hm ⊢
    rw [horders]
    exact (h skuId m hm).imp_left mem_insertOrders_of_mem
  | some c =>
    rw [hc] at hredis
    rw [Instance.inserted_of_command hc] at horders
    exact h.run (hp x c hx hc) hredis horders

theorem InsertedFirst.of_recoverable (hn : s.next a = some t) (h : Recoverable t.world) :
    InsertedFirst s a := by
  intro x c hx hc
  obtain ⟨x',y,hx',hstep,-⟩ := State.next_cases hn
  obtain rfl := Option.some.inj (hx.symm.trans hx')
  obtain ⟨hredis,horders,-⟩ := Instance.next_outside hstep
  rw [hc] at hredis
  rw [Instance.inserted_of_command hc] at horders
  exact h.settles hredis horders

/-- Every deduction stays recoverable, exactly in the runs where each member
leaves the pending set after its row came into the database. -/
theorem recoverable_iff {s₀ : State ι} {as : List (ι × Act)} (hinit : system.init s₀)
    (h : system.Run s₀ as s) :
    system.Along InsertedFirst s₀ as ↔ system.Throughout (fun s => Recoverable s.world) s₀ as := by
  refine System.along_iff_throughout (fun _ h => h) (fun _ _ _ h hp hn => h.next hp hn)
    (fun _ _ _ _ hn ht => .of_recoverable hn ht) h ?_
  obtain ⟨stock,skus,orders,rfl⟩ := hinit
  intro skuId m hm
  rw [start_live] at hm
  cases hm

end Steps

/-- The ticker of `cleanupWorker` comes first, and the process ends before that of `dbWorker`. -/
def crashRun : List (Unit × Act) := (saleRun ++ cleanupRun ++ [Act.crash]).map ((),·)

def crashedState : State Unit := (system.exec warmStart crashRun).get (by decide +kernel)

theorem crashedState_run : system.Run warmStart crashRun crashedState :=
  System.run_of_exec (Option.some_get _).symm

theorem crashedState_lost : ¬Recoverable crashedState.world := by
  intro h
  have := h 999 sale (by decide +kernel)
  exact absurd this (by decide +kernel)

theorem recoverable_iff_crash : ¬system.Along InsertedFirst warmStart crashRun :=
  fun h => crashedState_lost
    (((recoverable_iff ⟨_,_,_,rfl⟩ crashedState_run).mp h).last crashedState_run)

/-- The stock is deducted and nothing is left to settle the request with. -/
theorem crash_strands_deduction :
    system.Run warmStart crashRun crashedState ∧
    (crashedState.world.redis.gates 999).stock = some 99 ∧
    (crashedState.world.redis.gates 999).live = {sale} ∧
    (crashedState.world.redis.gates 999).members = [] ∧ crashedState.world.orders = [] ∧
    crashedState.instances () = none ∧ ¬Recoverable crashedState.world :=
  ⟨crashedState_run,by decide +kernel,by decide +kernel,by decide +kernel,by decide +kernel,
    rfl,crashedState_lost⟩

end Flashsale.Backend
