import Flashsale.ClosedLoop
set_option autoImplicit false

/-!
The range of the stock in Redis and in the workers, for whatever quantities the
clients send: it holds as long as no request is deducted whose quantity is
negative, before or after the conversion, or more than there is.
-/

namespace Flashsale.Cache

theorem le_roundDouble {n : Nat} (h : 2^53 ≤ n) : 2^52 ≤ roundDouble n := by
  have hlog : 53 ≤ n.log2 := (Nat.le_log2 (by omega)).mpr h
  have hself : 2^n.log2 ≤ n := Nat.log2_self_le (by omega)
  have hsplit : 2^n.log2 = 2^(n.log2 - 52)*2^52 := by
    rw [← pow_add]
    congr 1
    omega
  have hq : 2^52 ≤ n/2^(n.log2 - 52) := by
    rw [Nat.le_div_iff_mul_le (Nat.pow_pos (by decide)),mul_comm,← hsplit]
    exact hself
  have hunit : 0 < 2^(n.log2 - 52) := Nat.pow_pos (by decide)
  have hle : 2^52*1 ≤ (n/2^(n.log2 - 52))*2^(n.log2 - 52) := Nat.mul_le_mul hq hunit
  unfold roundDouble
  dsimp only
  split
  · omega
  · rw [Nat.add_mul]
    omega

/-- A quantity that no conversion makes negative. -/
def Member.Countable (m : Member) : Prop := 0 ≤ m.qty.toInt ∧ 0 ≤ m.qty.toInt32.toInt

theorem luaNumber_nonneg {n : Int} (h : 0 ≤ n) : 0 ≤ luaNumber n :=
  mul_nonneg (Int.sign_nonneg_iff.mpr h) (Int.natCast_nonneg _)

section Countable
variable {m : Member}

theorem Member.Countable.luaQty_nonneg (h : m.Countable) : 0 ≤ m.luaQty := luaNumber_nonneg h.1

theorem Member.Countable.le_luaQty (h : m.Countable) : m.qty.toInt32.toInt ≤ m.luaQty := by
  obtain ⟨hpos,-⟩ := h
  by_cases hsmall : m.qty.toInt < 2^53
  · rw [Member.luaQty,luaNumber_of_lt (by omega),Int64.toInt_toInt32]
    unfold Int.bmod
    dsimp only
    split <;> omega
  · have hround := le_roundDouble (n := m.qty.toInt.natAbs) (by omega)
    have hsign : m.qty.toInt.sign = 1 := Int.sign_eq_one_of_pos (by omega)
    have hlt := m.qty.toInt32.toInt_lt
    rw [Member.luaQty,luaNumber,hsign,one_mul]
    omega

end Countable

def Member.luaIn (skuId : Int64) (m : Member) : Int := if m.skuId = skuId then m.luaQty else 0

section Scripts
variable {g g' : Gate} {m : Member} {left : Int}

theorem Gate.rollback_stock (h : g.stock = some left) (hm : 0 ≤ m.luaQty) :
    ∃ left', (g.rollback m).2.stock = some left' ∧ left ≤ left' ∧ left' ≤ left + m.luaQty := by
  rcases g.rollback_cases m with ⟨-,hr⟩ | ⟨-,-,hg⟩ | ⟨-,-,-,hg⟩
  · obtain ⟨left',hincr,hstock⟩ := hr.stock
    rw [h] at hincr
    have := incrBy_eq_some hincr
    exact ⟨left',hstock,by omega,by omega⟩
  · rw [hg]
    exact ⟨left,h,le_refl _,by omega⟩
  · rw [hg]
    exact ⟨left,h,le_refl _,by omega⟩

end Scripts
end Flashsale.Cache

namespace Flashsale.Engine
open Transducer

/-- Each stock lies between 0 and the one the worker started with. -/
def Ranged (inventory : Int64 → Option Int32) : Prop :=
  ∀ sku, (initialInventory sku = none → inventory sku = none) ∧
    ∀ v₀, initialInventory sku = some v₀ →
      ∃ v, inventory sku = some v ∧ 0 ≤ v.toInt ∧ v.toInt ≤ v₀.toInt

section Ledger
variable {inventory : Int64 → Option Int32} {r : Payload} {l : Ledger} {rs : List Payload}

theorem initialInventory_ranged : Ranged initialInventory := by
  intro sku
  refine ⟨id,fun v₀ h => ⟨v₀,h,?_,le_refl _⟩⟩
  obtain ⟨stock,hstock,hpos,-⟩ := (startWorker_stock (i := 0)).listed sku v₀ h
  obtain rfl := Option.some.inj (hstock.symm.trans h)
  exact hpos

theorem Ranged.deductFrom (h : Ranged inventory) (hq : 0 ≤ r.2.1.toInt) :
    Ranged (deductFrom inventory r).1 := by
  unfold Engine.deductFrom
  cases hs : inventory r.1 with
  | none => exact h
  | some stock =>
    by_cases hle : stock ≥ r.2.1
    · simp only [hle,if_true]
      have hsub := toInt_sub_of_le hq (Int32.le_iff_toInt_le.mp hle)
      have hle := Int32.le_iff_toInt_le.mp hle
      intro sku
      by_cases he : sku = r.1
      · subst he
        refine ⟨fun hn => ?_,fun v₀ hv => ?_⟩
        · rw [(h r.1).1 hn] at hs
          cases hs
        · obtain ⟨v,hv',hpos,hv₀⟩ := (h r.1).2 v₀ hv
          obtain rfl := Option.some.inj (hs.symm.trans hv')
          exact ⟨_,Function.update_self ..,by omega,by omega⟩
      · rw [Function.update_of_ne he]
        exact h sku
    · simp only [hle,if_false]
      exact h

theorem Ledger.process_ranged (h : Ranged l.inventory) (hq : ¬ r.Control → 0 ≤ r.2.1.toInt) :
    Ranged (l.process r).1.inventory := by
  unfold Ledger.process
  split
  · exact h
  rename_i hctl
  split
  · exact h
  split
  · exact h
  · exact h.deductFrom (hq hctl)

theorem after_ranged (h : Ranged l.inventory)
    (hq : ∀ r ∈ rs, ¬ Payload.Control r → 0 ≤ r.2.1.toInt) :
    Ranged (after Ledger.process l rs).inventory := by
  induction rs generalizing l with
  | nil => exact h
  | cons r rs ih =>
    exact ih (Ledger.process_ranged h (hq r List.mem_cons_self))
      fun r' hr => hq r' (List.mem_cons_of_mem _ hr)

end Ledger
end Flashsale.Engine

namespace Flashsale.Server
open Cache Engine Backend Transition Transducer
variable {κ : Type}

def total {α : Type} (f : α → Int) (ms : Multiset α) : Int := (ms.map f).sum

section Totals
variable {α β : Type} {f : α → Int} {ms ms' : Multiset α} {x : α}

theorem total_add : total f (ms + ms') = total f ms + total f ms' := by
  simp [total]

@[simp] theorem total_cons : total f (x ::ₘ ms) = f x + total f ms := by simp [total]

theorem total_map (g : β → Int) (h : α → β) : total g (ms.map h) = total (fun x => g (h x)) ms := by
  simp [total]

theorem total_nonneg (h : ∀ x ∈ ms, 0 ≤ f x) : 0 ≤ total f ms := by
  refine Multiset.sum_nonneg fun y hy => ?_
  obtain ⟨x,hx,rfl⟩ := Multiset.mem_map.mp hy
  exact h x hx

theorem total_le_of_le (hle : ms ≤ ms') (h : ∀ x ∈ ms', 0 ≤ f x) : total f ms ≤ total f ms' := by
  obtain ⟨rest,rfl⟩ := Multiset.le_iff_exists_add.mp hle
  have := total_nonneg fun x hx => h x (Multiset.mem_add.mpr (.inr hx))
  rw [total_add]
  omega

theorem total_mono {g : α → Int} (h : ∀ x ∈ ms, f x ≤ g x) : total f ms ≤ total g ms :=
  Multiset.sum_map_le_sum_map f g h

end Totals

/-- Every stock in its range, and every subtraction of `Process` exact. -/
structure InRange (stock : Int64 → Option Int64) (s : State κ) : Prop where
  redis : ∀ sku q, stock sku = some q →
    ∃ left, (s.gates sku).stock = some left ∧ 0 ≤ left ∧ left ≤ q.toInt
  owner : ∀ sku v₀, initialInventory sku = some v₀ →
    ∃ v, (s.engine.shards (shardIdx sku)).worker.inventory sku = some v ∧
      0 ≤ v.toInt ∧ v.toInt ≤ v₀.toInt
  exact : ∀ i req items count v, (s.engine.shards i).worker.pc = .process (req :: items) count →
    ¬ Payload.Control req.payload → (s.engine.shards i).worker.inventory req.skuId = some v →
    v ≥ req.qty → (v - req.qty).toInt = v.toInt - req.qty.toInt

/-- A request that the script deducts has a quantity that is negative neither in
Redis nor in the engine, and not more than there is. -/
def Covered (s : State κ) : Act κ → Prop
  | .receive http _ => (s.gates http.member.skuId).Admits http.member →
      http.member.Countable ∧
        ∀ left, (s.gates http.member.skuId).stock = some left → http.member.luaQty ≤ left
  | _ => True

instance (m : Member) : Decidable m.Countable := inferInstanceAs (Decidable (_ ∧ _))

instance (s : State κ) : ∀ a, Decidable (Covered s a)
  | .receive http _ =>
      inferInstanceAs (Decidable ((s.gates http.member.skuId).Admits http.member →
        http.member.Countable ∧
          ∀ left ∈ (s.gates http.member.skuId).stock, http.member.luaQty ≤ left))
  | .enqueue _ _ | .enqueued _ _ | .undo _ _ | .poll _ | .polled _ | .cleanup _
  | .warmUp _ | .drain _ | .engine _ => isTrue trivial

structure Stocked (stock : Int64 → Option Int64) (s : State κ) : Prop where
  countable : ∀ m ∈ s.deducted, m.Countable
  clients : Clients (fun r => 0 ≤ r.2.1.toInt) s.engine
  redis : ∀ sku q, stock sku = some q →
    ∃ left, (s.gates sku).stock = some left ∧ 0 ≤ left ∧
      left + total (Member.luaIn sku) s.deducted ≤ q.toInt + total (Member.luaIn sku) s.returned

section Bounds
variable [DecidableEq κ] {s s' : State κ} {a : Act κ} {sku : Int64} {m : Member}

theorem luaIn_nonneg (h : m.Countable) : 0 ≤ m.luaIn sku := by
  unfold Member.luaIn
  split
  · exact h.luaQty_nonneg
  · exact le_refl 0

theorem taskOf_luaQty (res : CSeckillResult) :
    (taskOf res).member.luaQty = (creqOf (taskOf res).member).2.1.toInt := by
  have hle := res.qty.le_toInt
  have hlt := res.qty.toInt_lt
  have hq : (taskOf res).member.qty.toInt = res.qty.toInt := Int32.toInt_toInt64 ..
  rw [Member.luaQty,hq,luaNumber_of_lt (by omega)]
  simp [creqOf,taskOf,CleanupTask.member]

theorem returnable_nonneg (h : system.Reachable s) (hc : ∀ m ∈ s.deducted, m.Countable) :
    (∀ m r, (m,r) ∈ s.refused → 0 ≤ m.luaQty) ∧ (∀ m ∈ s.undone, 0 ≤ m.luaQty) ∧
      ∀ t ∈ s.tasks + s.cleaned, 0 ≤ t.member.luaQty := by
  have hsplit := (reachable_books h).split
  refine ⟨fun m r hm => ?_,fun m hm => ?_,fun t ht => ?_⟩
  · refine (hc m ?_).luaQty_nonneg
    rw [hsplit]
    simp only [Multiset.mem_add,Multiset.mem_map]
    exact .inr (.inr (.inl ⟨_,hm,rfl⟩))
  · refine (hc m ?_).luaQty_nonneg
    rw [hsplit]
    simp only [Multiset.mem_add]
    exact .inr (.inr (.inr hm))
  · obtain ⟨res,rfl⟩ := task_of_result h ht
    rw [taskOf_luaQty]
    have hmem := Multiset.mem_of_le (tasks_le h)
      (Multiset.mem_map_of_mem creqOf (Multiset.mem_map_of_mem CleanupTask.member ht))
    obtain ⟨m,hm,hsame⟩ := Multiset.mem_map.mp hmem
    rw [← hsame]
    refine (hc m ?_).2
    rw [hsplit]
    exact Multiset.mem_add.mpr (.inr (Multiset.mem_add.mpr (.inl hm)))

theorem returned_le (h : system.Reachable s) (hc : ∀ m ∈ s.deducted, m.Countable) :
    total (Member.luaIn sku) s.returned ≤ total (Member.luaIn sku) s.deducted := by
  have hsplit := (reachable_books h).split
  have hpos : ∀ m ∈ s.deducted, 0 ≤ m.luaIn sku := fun m hm => luaIn_nonneg (hc m hm)
  rw [hsplit] at hc hpos ⊢
  simp only [Multiset.mem_add] at hc hpos
  let qtyIn (r : Payload) : Int := if r.1 = sku then r.2.1.toInt else 0
  have hcleaned : total (Member.luaIn sku) (s.cleaned.map CleanupTask.member) ≤
      total (Member.luaIn sku) ((s.enqueuing + s.accepted).map Prod.snd) := by
    have hsame : ∀ t ∈ s.cleaned, t.member.luaIn sku = qtyIn (creqOf t.member) := by
      intro t ht
      obtain ⟨res,rfl⟩ := task_of_result h (Multiset.mem_add.mpr (.inr ht))
      simp only [Member.luaIn,taskOf_luaQty]
      rfl
    have hle : (s.cleaned.map CleanupTask.member).map creqOf ≤
        ((s.enqueuing + s.accepted).map Prod.snd).map creqOf := by
      refine le_trans (Multiset.map_le_map (Multiset.map_le_map ?_)) (tasks_le h)
      exact Multiset.le_add_left _ _
    have hnonneg : ∀ r ∈ ((s.enqueuing + s.accepted).map Prod.snd).map creqOf, 0 ≤ qtyIn r := by
      intro r hr
      obtain ⟨m,hm,rfl⟩ := Multiset.mem_map.mp hr
      simp only [qtyIn]
      split
      · exact (hc m (.inr (.inl hm))).2
      · exact le_refl 0
    calc total (Member.luaIn sku) (s.cleaned.map CleanupTask.member)
        = total qtyIn ((s.cleaned.map CleanupTask.member).map creqOf) := by
          rw [total_map,total_map,total_map]
          exact congrArg Multiset.sum (Multiset.map_congr rfl hsame)
      _ ≤ total qtyIn (((s.enqueuing + s.accepted).map Prod.snd).map creqOf) :=
          total_le_of_le hle hnonneg
      _ ≤ total (Member.luaIn sku) ((s.enqueuing + s.accepted).map Prod.snd) := by
          rw [total_map]
          refine total_mono fun m hm => ?_
          simp only [qtyIn,Member.luaIn,creqOf]
          split
          · exact (hc m (.inr (.inl hm))).le_luaQty
          · exact le_refl 0
  have hhandlers := total_nonneg fun m hm => hpos m (.inl hm)
  have hrefused := total_nonneg fun m hm => hpos m (.inr (.inr (.inl hm)))
  rw [State.returned,total_add,total_add,total_add,total_add]
  omega

end Bounds

section Runs
variable [DecidableEq κ] {stock : Int64 → Option Int64} {s s' s₀ : State κ} {a : Act κ}
  {as : List (Act κ)}

omit [DecidableEq κ] in
theorem Stocked.rollback {m : Member} {sku : Int64} {q left : Int} (hm : 0 ≤ m.luaQty)
    (hleft : (s.gates sku).stock = some left) (hpos : 0 ≤ left)
    (hsum : left + total (Member.luaIn sku) s.deducted ≤ q + total (Member.luaIn sku) s.returned) :
    ∃ left', (Function.update s.gates m.skuId ((s.gates m.skuId).rollback m).2 sku).stock = some left' ∧
      0 ≤ left' ∧ left' + total (Member.luaIn sku) s.deducted ≤
        q + (m.luaIn sku + total (Member.luaIn sku) s.returned) := by
  by_cases hs : sku = m.skuId
  · subst hs
    obtain ⟨left',hleft',hge,hle⟩ := Gate.rollback_stock hleft hm
    rw [Function.update_self,Member.luaIn,if_pos rfl]
    exact ⟨left',hleft',by omega,by omega⟩
  · rw [Function.update_of_ne hs,Member.luaIn,if_neg (Ne.symm hs)]
    exact ⟨left,hleft,hpos,by omega⟩

theorem Stocked.next (h : Stocked stock s) (hreach : system.Reachable s) (hcov : Covered s a)
    (hn : system.next s a = some s') : Stocked stock s' := by
  have hs := State.next_cases hn
  have hback := returnable_nonneg hreach h.countable
  have hcount : ∀ m ∈ s'.deducted, m.Countable := by
    rcases hs.deducted_cases with he | ⟨http,now,rfl,hadm,he⟩
    · rw [he]
      exact h.countable
    · rw [he]
      intro m hm
      rcases Multiset.mem_cons.mp hm with rfl | hm
      · exact (hcov hadm).1
      · exact h.countable m hm
  have hclients : Clients (fun r => 0 ≤ r.2.1.toInt) s'.engine := hs.clients h.clients fun m hm =>
    (h.countable m (Multiset.mem_of_le (reachable_books hreach).handlers_le hm)).2
  refine ⟨hcount,hclients,fun sku q hq => ?_⟩
  obtain ⟨left,hleft,hpos,hsum⟩ := h.redis sku q hq
  cases hs with
  | @deducted http now g admits script =>
    obtain ⟨st,hst,-,hst'⟩ := script.stock
    have hle := (hcov admits).2 st hst
    have hlua := (hcov admits).1.luaQty_nonneg
    change ∃ left', (Function.update s.gates http.member.skuId g sku).stock = some left' ∧ _ ∧
      left' + total _ (http.member ::ₘ s.deducted) ≤ _
    rw [total_cons,Member.luaIn]
    by_cases he : sku = http.member.skuId
    · subst he
      obtain rfl := Option.some.inj (hst.symm.trans hleft)
      rw [Function.update_self,if_pos rfl]
      refine ⟨_,hst',by omega,?_⟩
      change _ ≤ q.toInt + total _ s.returned
      omega
    · rw [Function.update_of_ne he,if_neg (Ne.symm he)]
      refine ⟨left,hleft,hpos,?_⟩
      change _ ≤ q.toInt + total _ s.returned
      omega
  | @undo m r asked =>
    have hreturned : total (Member.luaIn sku) (m ::ₘ s.undone + s.cleaned.map CleanupTask.member) =
        m.luaIn sku + total (Member.luaIn sku) s.returned := by
      rw [Multiset.cons_add,total_cons]
      rfl
    have hroll := Stocked.rollback (hback.1 m r asked) hleft hpos hsum
    rw [← hreturned] at hroll
    exact hroll
  | @cleanup t asked =>
    have hreturned : total (Member.luaIn sku) (s.undone + (t ::ₘ s.cleaned).map CleanupTask.member) =
        t.member.luaIn sku + total (Member.luaIn sku) s.returned := by
      rw [Multiset.map_cons,Multiset.add_cons,total_cons]
      rfl
    have hroll := Stocked.rollback (hback.2.2 t (Multiset.mem_add.mpr (.inl asked))) hleft hpos hsum
    rw [← hreturned] at hroll
    exact hroll
  | _ => exact ⟨left,hleft,hpos,hsum⟩

theorem Stocked.inRange (h : Stocked stock s) (hreach : system.Reachable s) : InRange stock s := by
  have hengine := reachable_engine hreach
  have hranged : ∀ i, Ranged (s.engine.shards i).worker.inventory := by
    intro i
    have hf := reachable_fifo hengine i
    have hledger := congrArg Ledger.inventory (reachable_recorded hengine i).ledger
    change (s.engine.shards i).worker.inventory = _ at hledger
    rw [hledger]
    refine after_ranged initialInventory_ranged fun r hr hctl => ?_
    obtain ⟨c,hadm⟩ := h.clients.admitted hf (hf.processed_prefix.subset hr)
    exact hadm.ordinary hctl
  refine ⟨fun sku q hq => ?_,fun sku v₀ hv => ?_,fun i req items count v hpc hctl hv hle => ?_⟩
  · obtain ⟨left,hleft,hpos,hsum⟩ := h.redis sku q hq
    have hle : total (Member.luaIn sku) s.returned ≤ total (Member.luaIn sku) s.deducted :=
      returned_le hreach h.countable
    exact ⟨left,hleft,hpos,by omega⟩
  · exact (hranged _ sku).2 v₀ hv
  · have hmem : req ∈ (s.engine.shards i).worker.batchBuffer := by
      simp [Worker.batchBuffer,hpc,Loop.items]
    exact toInt_sub_of_le (h.clients.ordinary_ok (reachable_fifo hengine i) hmem hctl)
      (Int32.le_iff_toInt_le.mp hle)

theorem start_stocked {e : Engine.State κ} (hi : Engine.system.init e)
    (hw : ∀ sku q, stock sku = some q → 0 ≤ q.toInt) : Stocked stock (start stock e) := by
  obtain ⟨_,_,_,_,rfl⟩ := hi
  refine ⟨fun m hm => absurd hm (Multiset.notMem_zero m),initEngine_clients _ _ _ _,
    fun sku q hq => ⟨q.toInt,?_,hw sku q hq,?_⟩⟩
  · simp [start,hq,Gate.warmUp]
  · exact le_refl _

/-- Whatever the clients send, as long as each deduction is covered every stock
stays in its range and no subtraction overflows. -/
theorem stock_in_range {e : Engine.State κ} (hi : Engine.system.init e)
    (hw : ∀ sku q, stock sku = some q → 0 ≤ q.toInt) (hr : system.Run (start stock e) as s)
    (hc : system.Along Covered (start stock e) as) : InRange stock s := by
  have hstart : system.Reachable (start stock e) := .of_init ⟨stock,e,hi,rfl⟩
  have hstocked : Stocked stock s := hstart.invariant_along
    (fun _ _ _ hreach h hp hn => h.next hreach hp hn) hr hc (start_stocked hi hw)
  exact hstocked.inRange (hstart.run hr)

end Runs

theorem warmStock_nonneg : ∀ sku q, warmStock sku = some q → 0 ≤ q.toInt := by
  intro sku q h
  unfold warmStock at h
  repeat' split at h
  all_goals cases h
  all_goals decide

theorem stock_in_range_sale : InRange warmStock soldState :=
  have hc : system.Along Covered shopStart saleRun := by decide +kernel
  stock_in_range ⟨0,0,0,0,rfl⟩ warmStock_nonneg soldState_run hc

def negativeOrder : HttpRequest := { buyWith ['5'] with qty := -2147483648 }

def restockedState : State Nat :=
  (system.exec shopStart (buyRun negativeOrder)).get (by decide +kernel)

def wrappedState : State Nat := (system.exec restockedState takeRun).get (by decide +kernel)

/-- The order is admitted. It raises the stock in Redis above what was warmed up,
and the subtraction in `Process` overflows and leaves a negative stock. -/
theorem negative_order_restocks :
    system.Run shopStart (buyRun negativeOrder ++ takeRun) wrappedState ∧
    (∀ sku q, warmStock sku = some q → 0 ≤ q.toInt) ∧ warmStock 999 = some 100 ∧
    (restockedState.gates 999).stock = some 2147483748 ∧
    (restockedState.engine.shards (shardIdx 999)).worker.inventory 999 = some 100 ∧
    (wrappedState.engine.shards (shardIdx 999)).worker.inventory 999 = some (-2147483548) ∧
    ¬ InRange warmStock restockedState ∧ ¬ InRange warmStock wrappedState := by
  have h₁ : system.Run shopStart (buyRun negativeOrder) restockedState :=
    System.run_of_exec (Option.some_get _).symm
  have h₂ : system.Run restockedState takeRun wrappedState :=
    System.run_of_exec (Option.some_get _).symm
  have hstock : (restockedState.gates 999).stock = some 2147483748 := by decide +kernel
  have hwrapped : (wrappedState.engine.shards (shardIdx 999)).worker.inventory 999 =
      some (-2147483548) := by decide +kernel
  refine ⟨h₁.append h₂,warmStock_nonneg,by decide +kernel,hstock,by decide +kernel,hwrapped,
    fun h => ?_,fun h => ?_⟩
  · obtain ⟨left,hleft,-,hle⟩ := h.redis 999 100 (by decide +kernel)
    rw [hstock,Option.some.injEq] at hleft
    rw [← hleft] at hle
    exact absurd hle (by decide)
  · obtain ⟨v,hv,hpos,-⟩ := h.owner 999 100 (by decide +kernel)
    rw [hwrapped,Option.some.injEq] at hv
    rw [← hv] at hpos
    exact absurd hpos (by decide)

end Flashsale.Server
