import Flashsale.EndToEnd
import Mathlib.Algebra.BigOperators.Fin
import Mathlib.Algebra.Order.BigOperators.Group.Finset
import Mathlib.Tactic.IntervalCases
set_option autoImplicit false

namespace Flashsale.Engine
open Transition
variable {κ : Type}

def CSeckillResult.sold (res : CSeckillResult) : Nat :=
  if res.status = 1 then res.qty.toNatClampNeg else 0

def soldIn (results : List CSeckillResult) (sku : Int64) : Nat :=
  ((results.filter (·.skuId = sku)).map (·.sold)).sum

def soldAllIn (results : List CSeckillResult) : Nat := (results.map (·.sold)).sum

/-- What a client may send: a positive quantity, and an id that is no control id. -/
def Sellable (r : Payload) : Prop := 1 ≤ r.2.1.toInt ∧ 0 < r.2.2.2 ∧ r.2.2.2 ≤ benchmarkLimit

instance (r : Payload) : Decidable (Sellable r) :=
  inferInstanceAs (Decidable (1 ≤ r.2.1.toInt ∧ 0 < r.2.2.2 ∧ r.2.2.2 ≤ benchmarkLimit))

section Sums
variable {results : List CSeckillResult} {res : CSeckillResult} {sku : Int64}

theorem soldIn_append : soldIn (results ++ [res]) sku =
    soldIn results sku + if res.skuId = sku then res.sold else 0 := by
  by_cases h : res.skuId = sku <;> simp [soldIn,h]

theorem soldAllIn_append : soldAllIn (results ++ [res]) = soldAllIn results + res.sold := by
  simp [soldAllIn]

theorem soldIn_eq_zero (h : ∀ res ∈ results, res.status = 1 → res.skuId ≠ sku) :
    soldIn results sku = 0 := by
  induction results with
  | nil => rfl
  | cons res results ih =>
    have hrest := ih fun r hr => h r (by simp [hr])
    by_cases hs : res.skuId = sku
    · have : res.sold = 0 := by
        unfold CSeckillResult.sold
        split
        · rename_i h1
          exact absurd hs (h res (by simp) h1)
        · rfl
      simp_all [soldIn]
    · simpa [soldIn,hs] using hrest

theorem soldAllIn_eq_sum {skus : Finset Int64}
    (h : ∀ res ∈ results, res.status = 1 → res.skuId ∈ skus) :
    soldAllIn results = ∑ sku ∈ skus, soldIn results sku := by
  induction results with
  | nil => simp [soldAllIn,soldIn]
  | cons res results ih =>
    have hrest := ih fun r hr => h r (by simp [hr])
    have hcons : ∀ sku, soldIn (res :: results) sku =
        (if res.skuId = sku then res.sold else 0) + soldIn results sku := by
      intro sku
      by_cases hs : res.skuId = sku <;> simp [soldIn,hs]
    have hhead : res.sold = ∑ sku ∈ skus, if res.skuId = sku then res.sold else 0 := by
      rw [Finset.sum_ite_eq]
      split
      · rfl
      · rename_i hmem
        unfold CSeckillResult.sold
        exact if_neg fun h1 => hmem (h res (by simp) h1)
    calc soldAllIn (res :: results) = res.sold + soldAllIn results := by simp [soldAllIn]
      _ = ∑ sku ∈ skus, ((if res.skuId = sku then res.sold else 0) + soldIn results sku) := by
        rw [Finset.sum_add_distrib,← hhead,hrest]
      _ = ∑ sku ∈ skus, soldIn (res :: results) sku :=
        Finset.sum_congr rfl fun sku _ => (hcons sku).symm

end Sums

/-- The stock of a worker and what it sold, when it is worker `i`. -/
structure Stock (i : ShardId) (w : Worker) : Prop where
  listed : ∀ sku s, initialInventory sku = some s → ∃ stock, w.inventory sku = some stock ∧
    0 ≤ stock.toInt ∧ stock.toInt + soldIn w.decided sku = s.toInt
  unlisted : ∀ sku, initialInventory sku = none → w.inventory sku = none
  owned : ∀ res ∈ w.decided, res.status = 1 →
    shardIdx res.skuId = i ∧ (initialInventory res.skuId).isSome

section Worker
variable {w w' : Worker} {sh sh' : Shared κ} {i : ShardId} {req : Request}

theorem startWorker_stock : Stock i startWorker where
  listed sku s hs := by
    refine ⟨s,hs,?_,by simp [startWorker,soldIn]⟩
    simp only [initialInventory] at hs
    repeat' split at hs
    all_goals cases hs
    all_goals decide
  unlisted sku h := h
  owned := by simp [startWorker]

theorem toInt_sub_of_le {a b : Int32} (hb : 0 ≤ b.toInt) (hab : b.toInt ≤ a.toInt) :
    (a - b).toInt = a.toInt - b.toInt := by
  have hlt := a.toInt_lt
  rw [Int32.toInt_sub]
  exact Int.bmod_eq_of_le (by omega) (by omega)

theorem Stock.append_unsold (h : Stock i w) {res : CSeckillResult} (hs : res.status ≠ 1)
    (hinv : w'.inventory = w.inventory) (hdec : w'.decided = w.decided ++ [res]) : Stock i w' where
  listed sku s hsku := by
    have hzero : res.sold = 0 := if_neg hs
    rw [hinv,hdec,soldIn_append,hzero]
    simpa using h.listed sku s hsku
  unlisted := by rw [hinv]; exact h.unlisted
  owned r hr h1 := by
    rw [hdec] at hr
    rcases List.mem_append.mp hr with hr | hr
    · exact h.owned r hr h1
    · exact absurd (List.mem_singleton.mp hr ▸ h1) hs

theorem Stock.sell (h : Stock i w) {stock : Int32} {res : CSeckillResult}
    (hstock : w.inventory req.skuId = some stock) (hle : req.qty.toInt ≤ stock.toInt)
    (hqty : 1 ≤ req.qty.toInt) (hown : shardIdx req.skuId = i) (hs : res.status = 1)
    (hsku : res.skuId = req.skuId) (hq : res.qty = req.qty)
    (hinv : w'.inventory = Function.update w.inventory req.skuId (some (stock - req.qty)))
    (hdec : w'.decided = w.decided ++ [res]) : Stock i w' := by
  have hsold : (res.sold : Int) = req.qty.toInt := by
    rw [CSeckillResult.sold,if_pos hs,hq]
    exact Int.toNat_of_nonneg (by omega)
  have hsub : (stock - req.qty).toInt = stock.toInt - req.qty.toInt :=
    toInt_sub_of_le (by omega) hle
  have hknown : ∃ s, initialInventory req.skuId = some s := by
    cases hi : initialInventory req.skuId with
    | some s => exact ⟨s,rfl⟩
    | none => rw [h.unlisted _ hi] at hstock; cases hstock
  refine ⟨fun sku s hs' => ?_,fun sku hn => ?_,fun r hr h1 => ?_⟩
  · obtain ⟨stock',hstock',hpos,hsum⟩ := h.listed sku s hs'
    rw [hinv,hdec,soldIn_append,hsku]
    by_cases he : sku = req.skuId
    · subst he
      obtain rfl : stock = stock' := Option.some.inj (hstock.symm.trans hstock')
      refine ⟨stock - req.qty,by simp,by omega,?_⟩
      rw [if_pos rfl]
      push_cast
      omega
    · refine ⟨stock',by simp [he,hstock'],hpos,?_⟩
      rw [if_neg fun h => he h.symm]
      simpa using hsum
  · have hne : sku ≠ req.skuId := by
      rintro rfl
      obtain ⟨s,hs⟩ := hknown
      rw [hs] at hn
      cases hn
    rw [hinv,Function.update_of_ne hne]
    exact h.unlisted sku hn
  · rw [hdec] at hr
    rcases List.mem_append.mp hr with hr | hr
    · exact h.owned r hr h1
    · obtain rfl := List.mem_singleton.mp hr
      obtain ⟨s,hs⟩ := hknown
      rw [hsku]
      exact ⟨hown,by simp [hs]⟩

theorem Stock.decision (h : Stock i w) (hd : Decision w w' sh sh' req)
    (hreq : req.requestId ≠ 0 → req.requestId ≤ benchmarkLimit →
      shardIdx req.skuId = i ∧ 1 ≤ req.qty.toInt) : Stock i w' := by
  cases hd with
  | passed hinv hdec hsold => exact ⟨hinv ▸ hdec ▸ h.listed,hinv ▸ h.unlisted,hdec ▸ h.owned⟩
  | decided hzero hlim hinv hdec hsold =>
    obtain ⟨hown,hqty⟩ := hreq hzero hlim
    cases hstock : w.inventory req.skuId with
    | none =>
      simp only [Worker.deduct,hstock] at hinv hdec
      exact h.append_unsold (show (0 : Int32) ≠ 1 by decide) hinv hdec
    | some stock =>
      by_cases hle : stock ≥ req.qty
      · simp only [Worker.deduct,hstock,hle,if_true] at hinv hdec
        exact h.sell hstock (Int32.le_iff_toInt_le.mp hle) hqty hown rfl rfl rfl hinv hdec
      · simp only [Worker.deduct,hstock,hle,if_false] at hinv hdec
        exact h.append_unsold (show (2 : Int32) ≠ 1 by decide) hinv hdec

theorem Decision.soldTotal (hd : Decision w w' sh sh' req)
    (hreq : req.requestId ≠ 0 → req.requestId ≤ benchmarkLimit → 1 ≤ req.qty.toInt) :
    ∃ n, soldAllIn w'.decided = soldAllIn w.decided + n ∧
      sh'.soldTotal = sh.soldTotal + UInt64.ofNat n := by
  cases hd with
  | passed hinv hdec hsold => exact ⟨0,by rw [hdec]; rfl,by simp [hsold]⟩
  | decided hzero hlim hinv hdec hsold =>
    have hqty := hreq hzero hlim
    rw [hdec,soldAllIn_append,hsold]
    by_cases hs : (w.deduct req).1 = 1
    · refine ⟨_,rfl,?_⟩
      have hpos : (0 : Int64) ≤ req.qty.toInt64 := by
        rw [Int64.le_iff_toInt_le,Int32.toInt_toInt64]
        exact Int.le_trans (by decide) hqty
      have hnat : req.qty.toInt64.toUInt64 = UInt64.ofNat req.qty.toNatClampNeg := by
        apply UInt64.toNat_inj.mp
        have hlt := req.qty.toNatClampNeg_lt
        rw [Int64.toNat_toUInt64_of_le hpos,Int32.toNatClampNeg_toInt64,UInt64.toNat_ofNat']
        omega
      simp [CSeckillResult.sold,hs,hnat,Request.result]
    · exact ⟨_,rfl,by simp [CSeckillResult.sold,hs]⟩

variable [DecidableEq κ] {inp : WorkerInput}

theorem Worker.step_account (h : w.step sh i inp = some (sh',w')) :
    (w'.inventory = w.inventory ∧ w'.decided = w.decided ∧ sh'.soldTotal = sh.soldTotal) ∨
      ∃ req items count, w.pc = .process (req :: items) count ∧ Decision w w' sh sh' req := by
  cases Worker.step_cases h with
  | process pc step =>
    obtain ⟨-,-,-,-,-,-,hd⟩ := step.frame
    exact .inr ⟨_,_,_,pc,hd⟩
  | @flag req res items count pc =>
    obtain ⟨wal,hwal⟩ := w.journal_eq req res inp.systemNow
    obtain ⟨soldOut,hflag⟩ := sh.storeFlag_eq w req.skuId
    rw [hwal,hflag]
    exact .inl ⟨rfl,rfl,rfl⟩
  | _ => exact .inl ⟨rfl,rfl,rfl⟩

end Worker

/-- The account of a session that began with `sold` in `sold_total`. -/
structure Account (sold : UInt64) (e : State κ) : Prop where
  stock : ∀ i, Stock i (e.shards i).worker
  total : e.shared.soldTotal =
    sold + UInt64.ofNat (∑ i, soldAllIn (e.shards i).worker.decided)

theorem initEngine_account (sold enq deq barrier : UInt64) :
    Account sold (initEngine sold enq deq barrier : State κ) where
  stock _ := startWorker_stock
  total := by simp [initEngine,startShard,startWorker,soldAllIn]

section Steps
variable {e e' : State κ} {a : Act κ}

theorem Fifo.batch_admitted {ok : Payload → Prop} {i : ShardId} {req : Request}
    (hf : Fifo (e.shards i)) (hc : Clients ok e) (hr : req ∈ (e.shards i).worker.batchBuffer) :
    ∃ c : Caller κ, Admitted ok i c req.payload := by
  refine hc.admitted hf ?_
  rw [← hf.pipeline]
  simp only [payloads,List.map_append,List.mem_append,List.mem_map]
  exact .inl (.inl (.inl (.inr ⟨req,hr,rfl⟩)))

theorem Admitted.sellable {ok : Payload → Prop} {i : ShardId} {c : Caller κ} {r : Payload}
    (h : Admitted ok i c r) (hzero : r.2.2.2 ≠ 0) (hlim : r.2.2.2 ≤ benchmarkLimit) :
    shardIdx r.1 = i ∧ ok r := by
  cases c with
  | dispatcher k => exact h.elim
  | client purpose c k =>
    cases purpose with
    | once => exact h
    | warmUp => exact absurd h hzero
    | barrier =>
      have h' : r.2.2.2 = barrierId := h
      rw [h'] at hlim
      exact absurd hlim (by decide)

variable [DecidableEq κ]

theorem State.next_account (hn : e.next a = some e') :
    (e'.shared.soldTotal = e.shared.soldTotal ∧
      ∀ i, (e'.shards i).worker.inventory = (e.shards i).worker.inventory ∧
        (e'.shards i).worker.decided = (e.shards i).worker.decided) ∨
    ∃ i req, req ∈ (e.shards i).worker.batchBuffer ∧
      Decision (e.shards i).worker (e'.shards i).worker e.shared e'.shared req ∧
      ∀ j, j ≠ i → e'.shards j = e.shards j := by
  by_cases ha : ∃ i inp, a = .work i inp
  · obtain ⟨i,inp,rfl⟩ := ha
    obtain ⟨⟨sh,w⟩,hw,rfl⟩ := Option.map_eq_some_iff.mp hn
    rcases Worker.step_account hw with ⟨hinv,hdec,hsold⟩ | ⟨req,items,count,hpc,hd⟩
    · left
      refine ⟨hsold,fun j => ?_⟩
      by_cases hj : j = i
      · subst hj
        rw [State.setShard_shards_self]
        exact ⟨hinv,hdec⟩
      · rw [State.setShard_shards_of_ne hj]
        exact ⟨rfl,rfl⟩
    · right
      refine ⟨i,req,by simp [Worker.batchBuffer,hpc,Loop.items],?_,
        fun j hj => State.setShard_shards_of_ne hj⟩
      rw [State.setShard_shards_self]
      exact hd
  · left
    have hshards : ∀ i, (e'.shards i).worker.inventory = (e.shards i).worker.inventory ∧
        (e'.shards i).worker.decided = (e.shards i).worker.decided := by
      intro i
      rcases State.next_shard hn i with hs | hs
      · rw [hs]; exact ⟨rfl,rfl⟩
      · generalize e'.shards i = s' at hs
        cases hs with
        | work => exact absurd ⟨_,_,rfl⟩ ha
        | _ => exact ⟨rfl,rfl⟩
    refine ⟨?_,hshards⟩
    by_cases hstop : a = .stop
    · subst hstop
      rw [State.stopEngine_shared hn]
    · exact (State.next_frame hn hstop fun i inp h => ha ⟨i,inp,h⟩).2

theorem Account.next {sold : UInt64} (h : Account sold e) (hf : ∀ i, Fifo (e.shards i))
    (hc : Clients Sellable e) (hn : e.next a = some e') : Account sold e' := by
  rcases State.next_account hn with ⟨hsold,hw⟩ | ⟨i,req,hmem,hd,hother⟩
  · refine ⟨fun i => ?_,?_⟩
    · obtain ⟨hinv,hdec⟩ := hw i
      exact ⟨hinv ▸ hdec ▸ (h.stock i).listed,hinv ▸ (h.stock i).unlisted,hdec ▸ (h.stock i).owned⟩
    · rw [hsold,h.total]
      simp only [fun i => (hw i).2]
  · obtain ⟨c,hadm⟩ := (hf i).batch_admitted hc hmem
    have hreq : req.requestId ≠ 0 → req.requestId ≤ benchmarkLimit →
        shardIdx req.skuId = i ∧ 1 ≤ req.qty.toInt :=
      fun hz hl => (hadm.sellable hz hl).imp id And.left
    refine ⟨fun j => ?_,?_⟩
    · by_cases hj : j = i
      · subst hj
        exact (h.stock j).decision hd hreq
      · rw [hother j hj]
        exact h.stock j
    · obtain ⟨n,hn',hsold⟩ := hd.soldTotal fun hz hl => (hreq hz hl).2
      have hsum : ∑ j, soldAllIn (e'.shards j).worker.decided =
          ∑ j, soldAllIn (e.shards j).worker.decided + n := by
        rw [← Finset.add_sum_erase _ _ (Finset.mem_univ i),
          ← Finset.add_sum_erase _ (fun j => soldAllIn (e.shards j).worker.decided) (Finset.mem_univ i),
          hn',Finset.sum_congr rfl fun j hj => by rw [hother j (Finset.ne_of_mem_erase hj)]]
        omega
      rw [hsold,h.total,hsum,UInt64.ofNat_add,UInt64.add_assoc]

theorem run_account {sold enq deq barrier : UInt64} {as : List (Act κ)}
    (hr : system.Run (initEngine sold enq deq barrier) as e)
    (ha : system.Along (Admits Sellable) (initEngine sold enq deq barrier) as) : Account sold e := by
  refine (hr.invariant_along (I := fun e => (∀ i, Fifo (e.shards i)) ∧ Clients Sellable e ∧
    Account sold e) ?_ ha ⟨fun _ => startShard_fifo,initEngine_clients _ _ _ _,
      initEngine_account _ _ _ _⟩).2.2
  intro e a e' h ha hn
  refine ⟨fun i => ?_,h.2.1.next ha hn,h.2.2.next h.1 h.2.1 hn⟩
  rcases State.next_shard hn i with hs | hs
  · rw [hs]; exact h.1 i
  · exact (h.1 i).step hs

end Steps

def inventorySkus : Finset Int64 :=
  {123,456,666,999,888,777,1001,1002,1003,1004,1005,1006,1007,1008}

theorem mem_inventorySkus {sku : Int64} (h : (initialInventory sku).isSome) :
    sku ∈ inventorySkus := by
  by_cases hr : 1001 ≤ sku ∧ sku ≤ 1008
  · have h1 : (1001 : Int) ≤ sku.toInt := Int64.le_iff_toInt_le.mp hr.1
    have h2 : sku.toInt ≤ 1008 := Int64.le_iff_toInt_le.mp hr.2
    have hsku : sku = Int64.ofInt sku.toInt := (Int64.ofInt_toInt sku).symm
    generalize sku.toInt = n at h1 h2 hsku
    subst hsku
    interval_cases n <;> decide
  · simp only [initialInventory] at h
    repeat' split at h
    all_goals first
      | (rename_i he; subst he; decide)
      | simp at h

theorem initialInventory_le {sku : Int64} {s : Int32} (h : initialInventory sku = some s) :
    s.toInt ≤ 10000000 := by
  simp only [initialInventory] at h
  repeat' split at h
  all_goals cases h
  all_goals decide

theorem Stock.soldAllIn_le {i : ShardId} {w : Worker} (h : Stock i w) :
    soldAllIn w.decided ≤ 140000000 := by
  have hmem : ∀ res ∈ w.decided, res.status = 1 → res.skuId ∈ inventorySkus :=
    fun res hr h1 => mem_inventorySkus (h.owned res hr h1).2
  have hle : ∀ sku ∈ inventorySkus, soldIn w.decided sku ≤ 10000000 := by
    intro sku _
    cases hs : initialInventory sku with
    | none =>
      rw [soldIn_eq_zero fun res hr h1 he => ?_]
      · exact Nat.zero_le _
      · have := (h.owned res hr h1).2
        rw [he,hs] at this
        cases this
    | some s =>
      obtain ⟨stock,-,hpos,hsum⟩ := h.listed sku s hs
      have := initialInventory_le hs
      omega
  rw [soldAllIn_eq_sum hmem]
  exact (Finset.sum_le_sum hle).trans (by decide)

/-- No oversell, engine wide. -/
theorem no_oversell [DecidableEq κ] {sold enq deq barrier : UInt64} {as : List (Act κ)}
    {e : State κ} (hr : system.Run (initEngine sold enq deq barrier) as e)
    (ha : system.Along (Admits Sellable) (initEngine sold enq deq barrier) as) :
    (∀ sku s, initialInventory sku = some s →
      (∀ i, i ≠ shardIdx sku → (e.shards i).worker.inventory sku = some s) ∧
      ∃ stock, (e.shards (shardIdx sku)).worker.inventory sku = some stock ∧
        0 ≤ stock.toInt ∧ stock.toInt ≤ s.toInt ∧
        ((∑ i, soldIn (e.shards i).worker.decided sku : Nat) : Int) = s.toInt - stock.toInt) ∧
    (e.shared.soldTotal - sold).toNat = ∑ i, soldAllIn (e.shards i).worker.decided := by
  have hacc := run_account hr ha
  refine ⟨fun sku s hs => ?_,?_⟩
  · have hzero : ∀ i, i ≠ shardIdx sku → soldIn (e.shards i).worker.decided sku = 0 :=
      fun i hi => soldIn_eq_zero fun res hres h1 he =>
        hi (he ▸ ((hacc.stock i).owned res hres h1).1).symm
    refine ⟨fun i hi => ?_,?_⟩
    · obtain ⟨stock,hstock,-,hsum⟩ := (hacc.stock i).listed sku s hs
      rw [hzero i hi] at hsum
      rw [hstock,Int32.toInt_inj.mp (by omega : stock.toInt = s.toInt)]
    · obtain ⟨stock,hstock,hpos,hsum⟩ := (hacc.stock (shardIdx sku)).listed sku s hs
      refine ⟨stock,hstock,hpos,by omega,?_⟩
      rw [Finset.sum_eq_single_of_mem (shardIdx sku) (Finset.mem_univ _) fun i _ hi => hzero i hi]
      omega
  · have hlt : ∑ i, soldAllIn (e.shards i).worker.decided < 2^64 := by
      have h0 := (hacc.stock 0).soldAllIn_le
      have h1 := (hacc.stock 1).soldAllIn_le
      rw [Fin.sum_univ_two]
      omega
    rw [hacc.total,UInt64.add_comm,UInt64.add_sub_cancel,UInt64.toNat_ofNat']
    exact Nat.mod_eq_of_lt hlt

theorem no_oversell_two :
    (secondState.shards 0).worker.inventory 123 = some 10000000 ∧
    (secondState.shared.soldTotal - 0).toNat =
      ∑ i, soldAllIn (secondState.shards i).worker.decided ∧
    secondState.shared.soldTotal = 2 :=
  have h₁ : system.Run (initEngine 0 0 0 0) acceptRun acceptState :=
    System.run_of_exec (Option.some_get _).symm
  have h₂ : system.Run acceptState secondRun secondState :=
    System.run_of_exec (Option.some_get _).symm
  have h := no_oversell (h₁.append h₂) (along_admits (by decide +kernel))
  ⟨(h.1 123 10000000 rfl).1 0 (by decide),h.2,by decide +kernel⟩

end Flashsale.Engine
