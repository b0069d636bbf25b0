import Flashsale.Holdings
import Flashsale.ServerCalls
set_option autoImplicit false

namespace Flashsale.Server
open Cache Engine Backend Transition
variable {κ : Type}

/-- The requests whose rollback was called. -/
def State.returned (s : State κ) : Multiset Member := s.undone + s.cleaned.map CleanupTask.member

section Tasks
variable [DecidableEq κ] {s : State κ}

omit [DecidableEq κ] in
theorem Books.split (h : Books s) : s.deducted = s.handlers +
    ((s.enqueuing + s.accepted).map Prod.snd + (s.refused.map Prod.fst + s.undone)) := by
  rw [h.deducted,State.callers,Multiset.map_add,h.rejected]

theorem rollbackTask_payloads (rs : Multiset CSeckillResult) :
    (rs.filterMap rollbackTask).map (fun t => creqOf t.member) = unsold rs := by
  induction rs using Multiset.induction with
  | empty => rfl
  | cons res rs ih =>
    by_cases hone : res.status = 1
    · have hnone : rollbackTask res = none := if_pos hone
      rw [Multiset.filterMap_cons_none _ _ hnone,ih,unsold,unsold,
        Multiset.filter_cons_of_neg _ (by simp [hone])]
    · have hsome : rollbackTask res = some (taskOf res) := if_neg hone
      have hpayload : creqOf (taskOf res).member = res.payload := by
        simp [creqOf,taskOf,CleanupTask.member,CSeckillResult.payload]
      rw [Multiset.filterMap_cons_some _ _ _ hsome,Multiset.map_cons,ih,hpayload,unsold,unsold,
        Multiset.filter_cons_of_pos _ (by simp [hone]),Multiset.map_cons]

theorem task_of_rollback {rs : Multiset CSeckillResult} {t : CleanupTask}
    (ht : t ∈ rs.filterMap rollbackTask) : ∃ res, t = taskOf res := by
  obtain ⟨res,-,hres⟩ := (Multiset.mem_filterMap rollbackTask _).mp ht
  unfold rollbackTask at hres
  split at hres
  · cases hres
  · exact ⟨res,(Option.some.inj hres).symm⟩

theorem task_of_result (h : system.Reachable s) {t : CleanupTask} (ht : t ∈ s.tasks + s.cleaned) :
    ∃ res, t = taskOf res := by
  rw [← (reachable_books h).received] at ht
  exact task_of_rollback ht

theorem taskOf_fits (res : CSeckillResult) : (taskOf res).member.Fits := by
  have hq : (taskOf res).member.qty.toInt = res.qty.toInt := Int32.toInt_toInt64 ..
  exact Member.fits_iff.mpr ⟨hq ▸ res.qty.le_toInt,hq ▸ res.qty.toInt_lt⟩

theorem rollbackTask_members (rs : Multiset CSeckillResult) :
    (rs.filterMap rollbackTask).map CleanupTask.member = (unsold rs).map memberOf := by
  rw [← rollbackTask_payloads,Multiset.map_map]
  refine Multiset.map_congr rfl fun t ht => ?_
  obtain ⟨res,rfl⟩ := task_of_rollback ht
  exact (memberOf_creqOf (taskOf_fits res)).symm

theorem tasks_le (h : system.Reachable s) :
    ((s.tasks + s.cleaned).map CleanupTask.member).map creqOf ≤
      ((s.enqueuing + s.accepted).map Prod.snd).map creqOf := by
  have hunsold := unsold_received_le h
  rw [← rollbackTask_payloads,(reachable_books h).received] at hunsold
  rwa [Multiset.map_map]

theorem memberOf_map {ms : Multiset Member} (h : ∀ m ∈ ms, m.Fits) :
    (ms.map creqOf).map memberOf = ms := by
  rw [Multiset.map_map]
  exact (Multiset.map_congr rfl fun m hm => memberOf_creqOf (h m hm)).trans (Multiset.map_id ms)

/-- What was given back and what is still to be given back was deducted. -/
theorem returned_owed_le (h : system.Reachable s) (hf : ∀ m ∈ s.deducted, m.Fits) :
    s.returned + (s.refused.map Prod.fst + s.tasks.map CleanupTask.member) ≤ s.deducted := by
  have hsplit := (reachable_books h).split
  have hfits : ∀ m ∈ (s.enqueuing + s.accepted).map Prod.snd, m.Fits := fun m hm => by
    refine hf m ?_
    rw [hsplit]
    exact Multiset.mem_add.mpr (.inr (Multiset.mem_add.mpr (.inl hm)))
  have htasks := Multiset.map_le_map (f := memberOf) (tasks_le h)
  rw [memberOf_map hfits,memberOf_map fun m hm => by
    obtain ⟨t,ht,rfl⟩ := Multiset.mem_map.mp hm
    obtain ⟨res,rfl⟩ := task_of_result h ht
    exact taskOf_fits res] at htasks
  rw [hsplit]
  calc s.returned + (s.refused.map Prod.fst + s.tasks.map CleanupTask.member)
      = (s.tasks + s.cleaned).map CleanupTask.member + (s.refused.map Prod.fst + s.undone) := by
        rw [State.returned,Multiset.map_add]
        abel
    _ ≤ (s.enqueuing + s.accepted).map Prod.snd + (s.refused.map Prod.fst + s.undone) :=
        add_le_add_left htasks _
    _ ≤ _ := Multiset.le_add_left _ _

end Tasks

/-- The gates hold what was deducted and not asked back, the stock to it. -/
structure Accounted (stock : Int64 → Option Int64) (s : State κ) : Prop where
  fits : ∀ m ∈ s.deducted, m.Fits
  warm : ∀ sku q, stock sku = some q → Tracked q.toInt (s.gates sku)
  cold : ∀ sku, stock sku = none → s.gates sku = Gate.empty
  live : ∀ sku, (s.gates sku).live + ofSku sku s.returned = ofSku sku s.deducted

/-- The request goes into the engine with the quantity that Redis deducts, and no
`INCRBY` of a rollback fails. -/
def Exact (s : State κ) : Act κ → Prop
  | .receive http _ => (s.gates http.member.skuId).Admits http.member → http.member.Fits
  | .undo m _ => incrBy (s.gates m.skuId).stock m.luaQty ≠ none
  | .cleanup t => incrBy (s.gates t.skuId).stock t.member.luaQty ≠ none
  | _ => True

instance (s : State κ) : ∀ a, Decidable (Exact s a)
  | .receive http _ => inferInstanceAs (Decidable (_ → http.member.Fits))
  | .undo m _ => inferInstanceAs (Decidable (incrBy (s.gates m.skuId).stock m.luaQty ≠ none))
  | .cleanup t => inferInstanceAs (Decidable (incrBy (s.gates t.skuId).stock t.member.luaQty ≠ none))
  | .engine _ | .enqueue _ _ | .enqueued _ _ | .poll _ | .polled _ | .warmUp _ | .drain _ =>
      isTrue trivial

section Gates
variable {stock : Int64 → Option Int64} {s s' : State κ} {m : Member}

theorem Accounted.of_eq (h : Accounted stock s) (hg : s'.gates = s.gates)
    (hd : s'.deducted = s.deducted) (hr : s'.returned = s.returned) : Accounted stock s' := by
  obtain ⟨fits,warm,cold,live⟩ := h
  exact ⟨hd ▸ fits,hg ▸ warm,hg ▸ cold,hg ▸ hd ▸ hr ▸ live⟩

theorem Accounted.tracked (h : Accounted stock s) {sku : Int64} (hm : m ∈ (s.gates sku).live) :
    ∃ q, stock sku = some q ∧ Tracked q.toInt (s.gates sku) := by
  cases hs : stock sku with
  | none =>
    rw [h.cold sku hs] at hm
    exact absurd hm (Multiset.notMem_zero m)
  | some q => exact ⟨q,rfl,h.warm sku q hs⟩

theorem Accounted.mem_live (h : Accounted stock s) {rest : Multiset Member}
    (hle : s.returned + m ::ₘ rest ≤ s.deducted) : m ∈ (s.gates m.skuId).live := by
  have hcount := congrArg (Multiset.count m) (h.live m.skuId)
  rw [Multiset.count_add,count_ofSku,count_ofSku] at hcount
  have hmore := Multiset.le_iff_count.mp hle m
  rw [Multiset.count_add,Multiset.count_cons_self] at hmore
  exact Multiset.count_pos.mp (by omega)

theorem Accounted.deduct {g : Gate} (h : Accounted stock s) (hfits : m.Fits)
    (hscript : Deducted (s.gates m.skuId) g m)
    (hg : s'.gates = Function.update s.gates m.skuId g) (hd : s'.deducted = m ::ₘ s.deducted)
    (hr : s'.returned = s.returned) : Accounted stock s' := by
  have hwarm : ∃ q, stock m.skuId = some q := by
    cases hs : stock m.skuId with
    | none =>
      obtain ⟨left,hleft,-⟩ := hscript.stock
      rw [h.cold _ hs] at hleft
      cases hleft
    | some q => exact ⟨q,rfl⟩
  obtain ⟨q,hq⟩ := hwarm
  refine ⟨?_,fun sku q' hq' => ?_,fun sku hs => ?_,fun sku => ?_⟩
  · rw [hd]
    exact fun x hx => (Multiset.mem_cons.mp hx).elim (fun he => he ▸ hfits) (h.fits x)
  · rw [hg]
    by_cases hsku : sku = m.skuId
    · subst hsku
      rw [Function.update_self]
      exact (h.warm _ q' hq').deduct hscript hfits.luaQty
    · rw [Function.update_of_ne hsku]
      exact h.warm sku q' hq'
  · have hsku : sku ≠ m.skuId := fun he => by rw [he,hq] at hs; cases hs
    rw [hg,Function.update_of_ne hsku]
    exact h.cold sku hs
  · rw [hg,hd,hr]
    by_cases hsku : sku = m.skuId
    · subst hsku
      rw [Function.update_self,hscript.live (h.warm _ q hq).once,Multiset.cons_add,h.live,ofSku_cons]
    · rw [Function.update_of_ne hsku,h.live,ofSku_cons_of_ne (Ne.symm hsku)]

theorem Accounted.rollback (h : Accounted stock s) (hm : m ∈ (s.gates m.skuId).live)
    (hincr : incrBy (s.gates m.skuId).stock m.luaQty ≠ none)
    (hg : s'.gates = Function.update s.gates m.skuId ((s.gates m.skuId).rollback m).2)
    (hd : s'.deducted = s.deducted) (hr : s'.returned = m ::ₘ s.returned) : Accounted stock s' := by
  obtain ⟨q,hq,htracked⟩ := h.tracked hm
  have huser : m.userId ∈ (s.gates m.skuId).bought :=
    (htracked.bought _).mpr (Multiset.mem_map_of_mem Member.userId hm)
  have hback : RolledBack (s.gates m.skuId) ((s.gates m.skuId).rollback m).2 m := by
    rcases (s.gates m.skuId).rollback_cases m with ⟨-,hb⟩ | ⟨-,hno,-⟩ | ⟨-,-,hnone,-⟩
    · exact hb
    · exact absurd huser hno
    · exact absurd hnone hincr
  refine ⟨hd ▸ h.fits,fun sku q' hq' => ?_,fun sku hs => ?_,fun sku => ?_⟩
  · rw [hg]
    by_cases hsku : sku = m.skuId
    · subst hsku
      rw [Function.update_self]
      exact (h.warm _ q' hq').rollback hback hm
    · rw [Function.update_of_ne hsku]
      exact h.warm sku q' hq'
  · have hsku : sku ≠ m.skuId := fun he => by rw [he,hq] at hs; cases hs
    rw [hg,Function.update_of_ne hsku]
    exact h.cold sku hs
  · rw [hg,hd,hr]
    by_cases hsku : sku = m.skuId
    · subst hsku
      rw [Function.update_self,hback.live,ofSku_cons,Multiset.add_cons,← Multiset.cons_add,
        Multiset.cons_erase hm,h.live]
    · rw [Function.update_of_ne hsku,ofSku_cons_of_ne (Ne.symm hsku),h.live]

end Gates

section Steps
variable [DecidableEq κ] {stock : Int64 → Option Int64} {s s' : State κ} {a : Act κ}

theorem Accounted.next (h : Accounted stock s) (hreach : system.Reachable s) (he : Exact s a)
    (hn : system.next s a = some s') : Accounted stock s' := by
  have howed := returned_owed_le hreach h.fits
  cases State.next_cases hn with
  | deducted admits script => exact h.deduct (he admits) script rfl rfl rfl
  | @undo m r asked =>
    obtain ⟨rest,hrest⟩ := Multiset.exists_cons_of_mem asked
    rw [hrest,Multiset.map_cons,Multiset.cons_add] at howed
    exact h.rollback (h.mem_live howed) he rfl rfl (Multiset.cons_add ..)
  | @cleanup t asked =>
    obtain ⟨rest,hrest⟩ := Multiset.exists_cons_of_mem asked
    rw [hrest,Multiset.map_cons,Multiset.add_cons] at howed
    have hreturned : s.undone + (t ::ₘ s.cleaned).map CleanupTask.member =
        t.member ::ₘ s.returned := by
      rw [Multiset.map_cons,Multiset.add_cons]
      rfl
    exact h.rollback (m := t.member) (h.mem_live howed) he rfl rfl hreturned
  | _ => exact h.of_eq rfl rfl rfl

omit [DecidableEq κ] in
theorem start_accounted (e : Engine.State κ) : Accounted stock (start stock e) where
  fits := fun m hm => absurd hm (Multiset.notMem_zero m)
  warm := fun sku q hq => by
    have hgate : (start stock e).gates sku = Gate.warmUp q := by simp [start,hq]
    rw [hgate]
    refine ⟨warmUp_conserved q,fun m => ?_,fun m hm => ?_⟩
    · simp [Gate.warmUp,Gate.empty,Gate.live,Gate.members]
    · simp [Gate.warmUp,Gate.empty,Gate.live] at hm
  cold := fun sku hs => by simp [start,hs]
  live := fun sku => by
    cases hs : stock sku <;> simp [start,hs,State.returned,ofSku,Gate.live,Gate.warmUp,Gate.empty]

end Steps
end Flashsale.Server
