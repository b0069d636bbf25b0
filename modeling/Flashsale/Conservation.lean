import Flashsale.Holdings
import Mathlib
set_option autoImplicit false

namespace Flashsale.Backend
open Cache Engine Transition

/-- The gate of one SKU against the requests for it that the processes hold and
the decisions made on them. -/
structure Account (stock : Int) (g : Gate) (opened selling undoing sold rejected acked :
    Multiset Member) : Prop where
  conserved : Conserved stock g
  nonneg : ∀ left ∈ g.stock, 0 ≤ left
  small : ∀ m ∈ g.live, Small m
  pending : ∀ m, m ∈ g.members ↔ m ∈ g.live ∧ m ∉ acked
  covered : opened + selling + undoing + acked ≤ g.live
  sold : sold = selling + acked
  rejected : rejected = undoing + g.givenBack

theorem quantity_nonneg {ms : Multiset Member} (h : ∀ m ∈ ms, Small m) : 0 ≤ quantity ms := by
  induction ms using Multiset.induction with
  | empty => simp [quantity]
  | cons m ms ih =>
    have hm := (h m (Multiset.mem_cons_self m ms)).1
    have := ih fun x hx => h x (Multiset.mem_cons_of_mem hx)
    rw [quantity_cons]
    omega

section Account
variable {stock : Int} {g g' : Gate} {opened selling undoing sold rejected acked : Multiset Member}
  {m : Member}

theorem Account.live_nodup
    (h : Account stock g opened selling undoing sold rejected acked) : g.live.Nodup :=
  .of_map _ h.conserved.single

theorem Account.deduct (h : Account stock g opened selling undoing sold rejected acked)
    (hd : Deducted g g' m) (hm : Small m) :
    Account stock g' ({m} + opened) selling undoing sold rejected acked := by
  have hlive := hd.live h.conserved.once
  have hfresh : m ∉ acked := by
    intro ha
    have : m ∈ g.live := Multiset.mem_of_le h.covered (by simp [ha])
    exact hd.fresh ((h.conserved.bought _).mpr (Multiset.mem_map_of_mem _ this))
  refine ⟨h.conserved.deduct hd hm.luaQty,?_,?_,?_,?_,h.sold,?_⟩
  · intro left hleft
    obtain ⟨before,hbefore,hle,hafter⟩ := hd.stock
    obtain rfl := Option.some.inj (hafter.symm.trans hleft)
    have := le_of_luaNumber hm.1 (by have := hm.2; omega) (hm.luaQty ▸ hle)
    rw [hm.luaQty]
    omega
  · intro x hx
    rw [hlive,Multiset.mem_cons] at hx
    rcases hx with rfl | hx
    · exact hm
    · exact h.small x hx
  · intro x
    rw [hd.members,hlive,Multiset.mem_cons,h.pending]
    constructor
    · rintro (rfl | ⟨hx,ha⟩)
      · exact ⟨.inl rfl,hfresh⟩
      · exact ⟨.inr hx,ha⟩
    · rintro ⟨rfl | hx,ha⟩
      · exact .inl rfl
      · exact .inr ⟨hx,ha⟩
  · rw [hlive,← Multiset.singleton_add,add_assoc,add_assoc,add_assoc]
    exact add_le_add_right (by simpa only [add_assoc] using h.covered) _
  · rw [hd.givenBack]
    exact h.rejected

theorem Account.pass (h : Account stock g ({m} + opened) selling undoing sold rejected acked) :
    Account stock g opened selling undoing sold rejected acked where
  __ := h
  covered := by
    refine le_trans ?_ h.covered
    simp only [add_assoc]
    exact Multiset.le_add_left _ _

theorem Account.sell (h : Account stock g ({m} + opened) selling undoing sold rejected acked) :
    Account stock g opened ({m} + selling) undoing ({m} + sold) rejected acked where
  __ := h
  covered := by
    refine le_of_eq_of_le ?_ h.covered
    abel
  sold := by rw [h.sold,add_assoc]

theorem Account.reject (h : Account stock g ({m} + opened) selling undoing sold rejected acked) :
    Account stock g opened selling ({m} + undoing) sold ({m} + rejected) acked where
  __ := h
  covered := by
    refine le_of_eq_of_le ?_ h.covered
    abel
  rejected := by rw [h.rejected,add_assoc]

theorem Account.ack {ms : List Member}
    (h : Account stock g opened (ms + selling) undoing sold rejected acked) :
    Account stock (g.zrem ms) opened selling undoing sold rejected (ms + acked) where
  conserved := ⟨h.conserved.once,h.conserved.bought,h.conserved.single,h.conserved.stock⟩
  nonneg := h.nonneg
  small := h.small
  pending x := by
    rw [Gate.mem_zrem,h.pending,Multiset.mem_add,Multiset.mem_coe,not_or]
    constructor
    · rintro ⟨⟨hx,ha⟩,hms⟩
      exact ⟨hx,hms,ha⟩
    · rintro ⟨hx,hms,ha⟩
      exact ⟨⟨hx,ha⟩,hms⟩
  covered := by
    refine le_of_eq_of_le ?_ h.covered
    abel
  sold := by
    rw [h.sold]
    abel
  rejected := h.rejected

theorem Account.undoing_live
    (h : Account stock g opened selling ({m} + undoing) sold rejected acked) : m ∈ g.live :=
  Multiset.mem_of_le h.covered (by simp)

theorem Account.rolledBack (h : Account stock g opened selling ({m} + undoing) sold rejected acked)
    (hstock : stock < 2^63) : (g.rollback m).1 = some 1 ∧ RolledBack g (g.rollback m).2 m := by
  have hm := h.undoing_live
  have hsmall := h.small m hm
  rcases g.rollback_cases m with hb | ⟨-,hu,-⟩ | ⟨-,-,hi,-⟩
  · exact hb
  · exact absurd ((h.conserved.bought _).mpr (Multiset.mem_map_of_mem _ hm)) hu
  · obtain ⟨left,hleft,hsum⟩ := h.conserved.stock
    have hnonneg := h.nonneg left hleft
    have hrest : 0 ≤ quantity (g.live.erase m) :=
      quantity_nonneg fun x hx => h.small x (Multiset.mem_of_mem_erase hx)
    rw [← Multiset.cons_erase hm,quantity_cons] at hsum
    obtain ⟨hl,hu⟩ := hsmall
    rw [hleft,Small.luaQty ⟨hl,hu⟩,incrBy_isSome (by omega) (by omega) (by omega)] at hi
    cases hi

theorem Account.undo (h : Account stock g opened selling ({m} + undoing) sold rejected acked)
    (hb : RolledBack g g' m) : Account stock g' opened selling undoing sold rejected acked := by
  have hm := h.undoing_live
  have hsmall := h.small m hm
  have hlive := hb.live
  refine ⟨h.conserved.rollback hb hm hsmall.luaQty,?_,?_,?_,?_,h.sold,?_⟩
  · intro left hleft
    obtain ⟨before,hbefore,-⟩ := h.conserved.stock
    obtain ⟨after,hincr,hafter⟩ := hb.stock
    obtain rfl := Option.some.inj (hafter.symm.trans hleft)
    rw [hbefore] at hincr
    have := h.nonneg before hbefore
    rw [incrBy_eq_some hincr,hsmall.luaQty]
    have := hsmall.1
    omega
  · intro x hx
    rw [hlive] at hx
    exact h.small x (Multiset.mem_of_mem_erase hx)
  · intro x
    rw [hb.members,hlive,h.live_nodup.mem_erase_iff,h.pending]
    constructor
    · rintro ⟨⟨hx,ha⟩,hne⟩
      exact ⟨⟨hne,hx⟩,ha⟩
    · rintro ⟨⟨hne,hx⟩,ha⟩
      exact ⟨⟨hx,ha⟩,hne⟩
  · rw [hlive]
    have hcover : m ::ₘ (opened + selling + undoing + acked) ≤ g.live := by
      refine le_of_eq_of_le ?_ h.covered
      rw [← Multiset.singleton_add]
      abel
    simpa using Multiset.erase_le_erase m hcover
  · rw [hb.givenBack,h.rejected,← Multiset.singleton_add]
    abel

end Account

theorem single_add_apply (st st' : Stage) (m : Member) (h : Holding) :
    (single st m + h) st' = (if st' = st then {m} else 0) + h st' := by
  simp [single,Pi.single_apply]

def Booked (skuId : Int64) (stock : Int) (h : Holding) (w : World) : Prop :=
  Account stock (w.redis.gates skuId) (ofSku skuId (h .opened)) (ofSku skuId (h .selling))
    (ofSku skuId (h .undoing)) (ofSku skuId w.sold) (ofSku skuId w.rejected) (ofSku skuId w.acked)

section Booked
variable {skuId : Int64} {stock : Int} {h h' : Holding} {w w' : World}

theorem Booked.frame (hb : Booked skuId stock h w) {redis : Redis}
    {sold rejected acked : Multiset Member} (hadds : Adds w w' redis sold rejected acked)
    (hgate : redis.gates skuId = w.redis.gates skuId) (hsold : ofSku skuId sold = 0)
    (hrejected : ofSku skuId rejected = 0) (hacked : ofSku skuId acked = 0)
    (hheld : ∀ st, ofSku skuId (h' st) = ofSku skuId (h st)) : Booked skuId stock h' w' := by
  simp only [Booked,hadds.gates,hadds.sold,hadds.rejected,hadds.acked,ofSku_add,hgate,hsold,
    hrejected,hacked,hheld,zero_add]
  exact hb

theorem ofSku_single_of_ne {m : Member} (hk : m.skuId ≠ skuId) (st st' : Stage) :
    ofSku skuId ((single st m + h) st') = ofSku skuId (h st') := by
  rw [single_add_apply,ofSku_add]
  split
  · rw [ofSku_singleton_of_ne hk,zero_add]
  · rw [ofSku_zero,zero_add]

theorem Booked.deduct {m : Member} {timestamp : Int} (hb : Booked skuId stock h w) (hm : Small m)
    (hreply : (w.redis.run (.deduct m timestamp)).1 = some 1)
    (hadds : Adds w w' (w.redis.run (.deduct m timestamp)).2 0 0 0) :
    Booked skuId stock (single .opened m + h) w' := by
  by_cases hk : m.skuId = skuId
  · subst hk
    have hd : Deducted (w.redis.gates m.skuId) (w'.redis.gates m.skuId) m := by
      rcases (w.redis.gates m.skuId).deduct_cases m timestamp with ⟨-,hd⟩ | ⟨hr,-⟩
      · simpa only [hadds.gates,Redis.run,Redis.setGate_self] using hd
      · simp only [Redis.run] at hreply
        simp [hreply] at hr
    simp only [Booked,hadds.sold,hadds.rejected,hadds.acked,single_add_apply,reduceCtorEq,if_true,
      if_false,zero_add,ofSku_add,ofSku_singleton]
    exact Account.deduct hb hd hm
  · refine hb.frame hadds (Redis.setGate_of_ne (Ne.symm hk)) rfl rfl rfl fun st => ?_
    rw [ofSku_single_of_ne hk]

theorem Booked.pass {m : Member} (hb : Booked skuId stock (single .opened m + h) w)
    (hadds : Adds w w' w.redis 0 0 0) : Booked skuId stock h w' := by
  by_cases hk : m.skuId = skuId
  · subst hk
    simp only [Booked,single_add_apply,reduceCtorEq,if_true,if_false,zero_add,ofSku_add,
      ofSku_singleton] at hb
    simp only [Booked,hadds.gates,hadds.sold,hadds.rejected,hadds.acked,zero_add]
    exact hb.pass
  · refine hb.frame hadds rfl rfl rfl rfl fun st => ?_
    rw [ofSku_single_of_ne hk]

theorem Booked.sell {m : Member} (hb : Booked skuId stock (single .opened m + h) w)
    (hadds : Adds w w' w.redis {m} 0 0) : Booked skuId stock (single .selling m + h) w' := by
  by_cases hk : m.skuId = skuId
  · subst hk
    simp only [Booked,single_add_apply,reduceCtorEq,if_true,if_false,zero_add,ofSku_add,
      ofSku_singleton] at hb
    simp only [Booked,hadds.gates,hadds.sold,hadds.rejected,hadds.acked,single_add_apply,
      reduceCtorEq,if_true,if_false,zero_add,ofSku_add,ofSku_singleton]
    exact hb.sell
  · refine hb.frame hadds rfl (ofSku_singleton_of_ne hk) rfl rfl fun st => ?_
    rw [ofSku_single_of_ne hk,ofSku_single_of_ne hk]

theorem Booked.reject {m : Member} (hb : Booked skuId stock (single .opened m + h) w)
    (hadds : Adds w w' w.redis 0 {m} 0) : Booked skuId stock (single .undoing m + h) w' := by
  by_cases hk : m.skuId = skuId
  · subst hk
    simp only [Booked,single_add_apply,reduceCtorEq,if_true,if_false,zero_add,ofSku_add,
      ofSku_singleton] at hb
    simp only [Booked,hadds.gates,hadds.sold,hadds.rejected,hadds.acked,single_add_apply,
      reduceCtorEq,if_true,if_false,zero_add,ofSku_add,ofSku_singleton]
    exact hb.reject
  · refine hb.frame hadds rfl rfl (ofSku_singleton_of_ne hk) rfl fun st => ?_
    rw [ofSku_single_of_ne hk,ofSku_single_of_ne hk]

theorem Booked.undo {m : Member} (hstock : stock < 2^63)
    (hb : Booked skuId stock (single .undoing m + h) w)
    (hadds : Adds w w' (w.redis.run (.rollback m)).2 0 0 0) : Booked skuId stock h w' := by
  by_cases hk : m.skuId = skuId
  · subst hk
    simp only [Booked,single_add_apply,reduceCtorEq,if_true,if_false,zero_add,ofSku_add,
      ofSku_singleton] at hb
    simp only [Booked,hadds.gates,hadds.sold,hadds.rejected,hadds.acked,zero_add,Redis.run,
      Redis.setGate_self]
    exact hb.undo (hb.rolledBack hstock).2
  · refine hb.frame hadds (Redis.setGate_of_ne (Ne.symm hk)) rfl rfl rfl fun st => ?_
    rw [ofSku_single_of_ne hk]

theorem Booked.retry {m : Member} (hstock : stock < 2^63)
    (hb : Booked skuId stock (single .undoing m + h) w)
    (hreply : (w.redis.run (.rollback m)).1 = none)
    (hheld : h' = h ∨ h' = single .undoing m + h)
    (hadds : Adds w w' (w.redis.run (.rollback m)).2 0 0 0) : Booked skuId stock h' w' := by
  by_cases hk : m.skuId = skuId
  · subst hk
    simp only [Booked,single_add_apply,reduceCtorEq,if_true,if_false,zero_add,ofSku_add,
      ofSku_singleton] at hb
    have hone : (w.redis.run (.rollback m)).1 = some 1 := (hb.rolledBack hstock).1
    rw [hreply] at hone
    cases hone
  · refine hb.frame hadds (Redis.setGate_of_ne (Ne.symm hk)) rfl rfl rfl fun st => ?_
    rcases hheld with rfl | rfl
    · rw [ofSku_single_of_ne hk]
    · rfl

theorem Booked.ack {c : Command} (hc : c.Grouped) (hb : Booked skuId stock (c.held + h) w)
    (hadds : Adds w w' (w.redis.run c).2 0 0 c.acks) : Booked skuId stock h w' := by
  cases c with
  | setnx id =>
    have hz : (Command.setnx id).held = 0 := Pi.single_zero _
    rw [hz,zero_add] at hb
    exact hb.frame hadds rfl rfl rfl rfl fun _ => rfl
  | zrem k ms =>
    have happly : ∀ st, ((Command.zrem k ms).held + h) st =
        (if st = .selling then (ms : Multiset Member) else 0) + h st := by
      intro st
      simp [Command.held,Command.acks,Pi.single_apply]
    by_cases hk : k = skuId
    · subst hk
      have hall : ofSku k (ms : Multiset Member) = ms := Multiset.filter_eq_self.mpr hc
      simp only [Booked,happly,reduceCtorEq,if_true,if_false,zero_add,ofSku_add,hall] at hb
      simp only [Booked,hadds.gates,hadds.sold,hadds.rejected,hadds.acked,zero_add,ofSku_add,
        Command.acks,hall,Redis.run,Redis.setGate_self]
      exact hb.ack
    · have hnone : ofSku skuId (ms : Multiset Member) = 0 :=
        Multiset.filter_eq_nil.mpr fun m hm he => hk ((hc m hm).symm.trans he)
      refine hb.frame hadds (Redis.setGate_of_ne (Ne.symm hk)) rfl rfl hnone fun st => ?_
      rw [happly,ofSku_add]
      split
      · rw [hnone,zero_add]
      · rw [ofSku_zero,zero_add]
  | deduct _ _ | rollback _ | sadd _ | rpush _ => cases hc

theorem Booked.moves (hb : Booked skuId stock h w) (hstock : stock < 2^63)
    (hm : Moves h h' w w') : Booked skuId stock h' w' := by
  cases hm with
  | stay held adds =>
    subst held
    exact hb.frame adds rfl rfl rfl rfl fun _ => rfl
  | deduct small reply held adds =>
    subst held
    exact hb.deduct small reply adds
  | pass held adds =>
    subst held
    exact hb.pass adds
  | sell before held adds =>
    subst before held
    exact hb.sell adds
  | reject before held adds =>
    subst before held
    exact hb.reject adds
  | ack grouped held adds =>
    subst held
    exact hb.ack grouped adds
  | undo reply held adds =>
    subst held
    exact hb.undo hstock adds
  | retry reply before held adds =>
    subst before
    exact hb.retry hstock reply held adds

end Booked

section Sound
variable {x x' : Instance} {w w' : World} {a : Act}

theorem Sound.goto {h : Handler} (hx : Sound x) (hsmall : ∀ m ∈ h.request, Small m) :
    Sound (x.goto h) where
  requests h' hm := by
    rcases Multiset.mem_cons.mp hm with rfl | hm
    · exact hsmall
    · exact hx.requests h' hm
  pipeline := hx.pipeline

theorem Sound.handle {h : Handler} {net : Net} {code : Int32} {now : Int} (hx : Sound x)
    (hsmall : ∀ m ∈ h.request, Small m) : Sound (x.handle w h net code now).2 := by
  cases h with
  | check m =>
    simp only [Instance.handle]
    split
    · exact hx
    · exact hx.goto hsmall
  | deduct m =>
    simp only [Instance.handle]
    split
    · exact ⟨hx.requests,hx.pipeline⟩
    · have hx' : Sound { x with redisFailureCount := 0 } := ⟨hx.requests,hx.pipeline⟩
      split
      · exact hx'
      split
      · exact hx'
      split
      · exact hx'
      · exact hx'.goto hsmall
  | register m => exact hx.goto hsmall
  | enqueue m =>
    simp only [Instance.handle]
    split
    · exact ⟨hx.requests,hx.pipeline⟩
    · exact hx.goto (by rintro m ⟨⟩)
  | rollback r response =>
    simp only [Instance.handle]
    split
    · exact hx
    · exact hx.goto (by rintro m ⟨⟩)

theorem grouped_pipelineOf (batch : List CleanupTask) (skus : List Int64) :
    ∀ c ∈ pipelineOf batch skus, c.Grouped := by
  intro c hc
  rcases List.mem_append.mp hc with hc | hc
  · obtain ⟨t,-,rfl⟩ := List.mem_map.mp hc
    trivial
  · obtain ⟨skuId,-,rfl⟩ := List.mem_map.mp hc
    intro m hm
    obtain ⟨t,ht,rfl⟩ := List.mem_map.mp hm
    exact of_decide_eq_true (List.mem_filter.mp ht).2

theorem Sound.next (hx : Sound x) (hcalm : a.Calm) (h : x.next w a = some (w',some x')) :
    Sound x' := by
  cases Instance.next_cases h with
  | receive m => exact hx.goto (by rintro m' ⟨⟩; exact hcalm)
  | handle net code now called =>
    cases called
    refine Sound.handle ⟨fun h' hm => ?_,hx.pipeline⟩ (hx.requests _ (Multiset.mem_cons_self _ _))
    exact hx.requests h' (Multiset.mem_cons_of_mem hm)
  | process step =>
    obtain ⟨e,-,he⟩ := Option.map_eq_some_iff.mp step
    cases he
    exact ⟨hx.requests,hx.pipeline⟩
  | poll step =>
    obtain ⟨results,workers,-,-,rfl⟩ := poll_eq step
    exact ⟨hx.requests,hx.pipeline⟩
  | push step => cases push_cases step <;> exact ⟨hx.requests,hx.pipeline⟩
  | receiveOrder step =>
    obtain ⟨order,rest,-,-,rfl⟩ := receiveOrder_eq step
    exact ⟨hx.requests,hx.pipeline⟩
  | flushOrders step =>
    obtain ⟨-,rfl,rfl⟩ := flushOrders_eq step
    exact ⟨hx.requests,hx.pipeline⟩
  | receiveTask step =>
    obtain ⟨task,rest,-,-,-,rfl⟩ := receiveTask_eq step
    exact ⟨hx.requests,hx.pipeline⟩
  | flushTasks step =>
    obtain ⟨-,-,-,rfl⟩ := flushTasks_eq step
    refine ⟨hx.requests,?_⟩
    rintro cs ⟨⟩
    exact grouped_pipelineOf _ _
  | pipe step =>
    have hrest {c : Command} {cs : List Command} (hpipe : x.pipeline = some (c :: cs)) :
        ∀ cs' ∈ some cs, ∀ c' ∈ cs', Command.Grouped c' := by
      rintro cs' ⟨⟩ c' hc'
      exact hx.pipeline _ hpipe c' (List.mem_cons_of_mem _ hc')
    cases pipe_cases step with
    | done hpipe => exact ⟨hx.requests,by rintro cs ⟨⟩⟩
    | failed hpipe _ | sent hpipe _ => exact ⟨hx.requests,hrest hpipe⟩
  | undo step =>
    obtain ⟨rest,-,rfl,rfl⟩ := undo_eq step
    exact ⟨hx.requests,hx.pipeline⟩
  | sweep step => cases hcalm

end Sound

section Runs
variable {ι : Type} [Fintype ι] {s t : State ι} {a : ι × Act}

def State.held (s : State ι) : Holding := ∑ i, (s.instances i).elim 0 Instance.held

/-- A step without Redis errors, crashes and sweeps. -/
def Calm (_ : State ι) (a : ι × Act) : Prop := a.2.Calm

structure Books (skuId : Int64) (stock : Int) (s : State ι) : Prop where
  sound : ∀ i, ∀ x ∈ s.instances i, Sound x
  booked : Booked skuId stock s.held s.world

variable [DecidableEq ι]

def State.others (s : State ι) (i : ι) : Holding :=
  ∑ j ∈ Finset.univ.erase i, (s.instances j).elim 0 Instance.held

theorem State.held_eq (s : State ι) (i : ι) :
    s.held = (s.instances i).elim 0 Instance.held + s.others i :=
  (Finset.add_sum_erase _ _ (Finset.mem_univ i)).symm

theorem State.others_update {i : ι} {y : Option Instance}
    (h : t.instances = Function.update s.instances i y) : t.others i = s.others i := by
  refine Finset.sum_congr rfl fun j hj => ?_
  rw [h,Function.update_of_ne (Finset.ne_of_mem_erase hj)]

theorem Books.next {skuId : Int64} {stock : Int} (h : Books skuId stock s) (hstock : stock < 2^63)
    (hcalm : Calm s a) (hn : s.next a = some t) : Books skuId stock t := by
  obtain ⟨x,y,hx,hstep,hinst⟩ := State.next_cases hn
  have hsound := h.sound a.1 x hx
  cases y with
  | none =>
    have ha := Instance.next_none hstep
    simp only [Calm,ha,Act.Calm] at hcalm
  | some x' =>
    have hmoves := Moves.next hsound hcalm hstep
    refine ⟨?_,?_⟩
    · intro i z hz
      rw [Option.mem_def,hinst] at hz
      by_cases hi : i = a.1
      · subst hi
        rw [Function.update_self] at hz
        cases hz
        exact hsound.next hcalm hstep
      · rw [Function.update_of_ne hi] at hz
        exact h.sound i z hz
    · have hbefore : s.held = x.held + s.others a.1 := by rw [State.held_eq s a.1,hx]; rfl
      have hafter : t.held = x'.held + s.others a.1 := by
        rw [State.held_eq t a.1,State.others_update hinst,hinst,Function.update_self]
        rfl
      have hbooked := h.booked
      rw [hbefore] at hbooked
      rw [hafter]
      exact hbooked.moves hstock (hmoves.add _)

end Runs

def refused : Member := { skuId := 999, userId := 8, qty := 3, reqId := 6 }

/-- One process sells `sale` and cleans up, another refuses `refused` and rolls it back. -/
def twoRun : List (Bool × Act) :=
  (saleRun ++ cleanupRun).map (false,·) ++
    [.receive refused,.handle (.check refused) .answered 0 0,
      .handle (.deduct refused) .answered 0 0,.handle (.register refused) .answered 0 0,
      .handle (.enqueue refused) .answered 0 0,
      .handle (.rollback ⟨refused,0⟩ queueFull) .answered 0 0].map (true,·)

def twoState : State Bool := (system.exec warmStart twoRun).get (by decide +kernel)

instance {ι : Type} (s : State ι) (a : ι × Act) : Decidable (Calm s a) :=
  inferInstanceAs (Decidable a.2.Calm)

end Flashsale.Backend
