import Flashsale.Journal
import Flashsale.Oversell
set_option autoImplicit false

namespace Flashsale.Engine
open Transition
variable {κ : Type}

/-- The worker that sells the SKU. -/
def State.owner (e : State κ) (sku : Int64) : Worker := (e.shards (shardIdx sku)).worker

/-- The worker has decided a request for the SKU and not looked at its flag yet. -/
def Worker.storing (w : Worker) (sku : Int64) : Prop :=
  match w.pc with
  | .flag req _ _ _ => req.skuId = sku
  | _ => False

structure Flags (e : State κ) : Prop where
  listed : ∀ sku, (e.shared.soldOut sku).isSome = (sessionFlags sku).isSome
  right : ∀ sku, e.shared.soldOut sku = some true → (e.owner sku).inventory sku = some 0
  complete : ∀ sku, (sessionFlags sku).isSome → (e.owner sku).inventory sku = some 0 →
    e.shared.soldOut sku = some true ∨ (e.owner sku).storing sku
  own : ∀ i req res items count, (e.shards i).worker.pc = .flag req res items count →
    shardIdx req.skuId = i

theorem initEngine_flags (sold enq deq barrier : UInt64) :
    Flags (initEngine sold enq deq barrier : State κ) where
  listed _ := rfl
  right sku h := by
    simp only [initEngine,sessionFlags] at h
    split at h <;> simp at h
  complete sku _ h := by
    simp only [State.owner,initEngine,startShard,startWorker,initialInventory] at h
    repeat' split at h
    all_goals simp at h
  own i req res items count h := by simp [initEngine,startShard,startWorker] at h

section Worker
variable {w w' : Worker} {sh sh' : Shared κ} {req : Request} {sku : Int64}

theorem storeFlag_soldOut (sh : Shared κ) (w : Worker) (req : Request) (sku : Int64) :
    (sh.storeFlag w req.skuId).soldOut sku =
      if req.skuId = sku ∧ w.inventory sku = some 0 ∧ (sh.soldOut sku).isSome then some true
      else sh.soldOut sku := by
  unfold Shared.storeFlag
  by_cases hz : w.inventory req.skuId = some 0
  · rw [if_pos hz]
    cases hf : sh.soldOut req.skuId with
    | none =>
      by_cases hs : req.skuId = sku
      · subst hs
        simp [hf]
      · simp [hs]
    | some b =>
      by_cases hs : req.skuId = sku
      · subst hs
        simp [hz,hf]
      · simp [hs,Function.update_of_ne (Ne.symm hs)]
  · rw [if_neg hz]
    by_cases hs : req.skuId = sku
    · subst hs
      simp [hz]
    · simp [hs]

theorem Worker.decide_keeps {items : List Request} {count : Nat} (hq : 1 ≤ req.qty.toInt)
    (h : sku ≠ req.skuId ∨ w.inventory sku = some 0) :
    (w.decide req items count).inventory sku = w.inventory sku := by
  change (w.deduct req).2.inventory sku = _
  rw [(w.deduct_payload req).2]
  exact deductFrom_keeps hq h

end Worker
section Steps
variable {e e' : State κ} {i : ShardId}

theorem Flags.frame (h : Flags e) (hflag : e'.shared.soldOut = e.shared.soldOut)
    (hstock : ∀ i, (e'.shards i).worker.inventory = (e.shards i).worker.inventory)
    (hstoring : ∀ i, (e'.shards i).worker.pc = (e.shards i).worker.pc ∨
      (∀ sku, ¬ (e.shards i).worker.storing sku) ∧ ∀ req res items count,
        (e'.shards i).worker.pc ≠ .flag req res items count) : Flags e' where
  listed sku := by rw [hflag]; exact h.listed sku
  right sku hs := by
    rw [hflag] at hs
    rw [State.owner,hstock]
    exact h.right sku hs
  complete sku hl hs := by
    rw [State.owner,hstock] at hs
    rw [hflag]
    refine (h.complete sku hl hs).imp id fun hst => ?_
    rcases hstoring (shardIdx sku) with hpc | ⟨hnot,-⟩
    · simpa only [State.owner,Worker.storing,hpc] using hst
    · exact absurd hst (hnot sku)
  own i req res items count hpc := by
    rcases hstoring i with heq | ⟨-,hnot⟩
    · exact h.own i req res items count (heq ▸ hpc)
    · exact absurd hpc (hnot req res items count)

theorem State.owner_eq {sku : Int64} (h : shardIdx sku = i) : e.owner sku = (e.shards i).worker := by
  rw [State.owner,h]

theorem Flags.decide {req : Request} {items : List Request} {count : Nat} (h : Flags e)
    (hpc : (e.shards i).worker.pc = .process (req :: items) count) (hq : 1 ≤ req.qty.toInt)
    (hown : shardIdx req.skuId = i) (hflag : e'.shared.soldOut = e.shared.soldOut)
    (hself : (e'.shards i).worker = (e.shards i).worker.decide req items count)
    (hother : ∀ j, j ≠ i → e'.shards j = e.shards j) : Flags e' := by
  refine ⟨fun sku => ?_,fun sku hs => ?_,fun sku hl hs => ?_,fun j req' res' items' count' hp => ?_⟩
  · rw [hflag]
    exact h.listed sku
  · rw [hflag] at hs
    have hz := h.right sku hs
    by_cases hi : shardIdx sku = i
    · rw [State.owner_eq hi] at hz ⊢
      rw [hself]
      exact (Worker.decide_keeps hq (.inr hz)).trans hz
    · rw [State.owner,hother _ hi]
      exact hz
  · rw [hflag]
    by_cases hi : shardIdx sku = i
    · rw [State.owner_eq hi,hself] at hs ⊢
      by_cases hsku : req.skuId = sku
      · exact .inr hsku
      · have hz := (Worker.decide_keeps hq (.inl (Ne.symm hsku))).symm.trans hs
        rw [← State.owner_eq hi] at hz
        refine (h.complete sku hl hz).imp id fun hst => ?_
        rw [State.owner_eq hi] at hst
        simp [Worker.storing,hpc] at hst
    · rw [State.owner,hother _ hi] at hs ⊢
      exact h.complete sku hl hs
  · by_cases hj : j = i
    · subst hj
      rw [hself] at hp
      simp only [Worker.decide,Worker.take,Loop.flag.injEq] at hp
      rw [← hp.1]
      exact hown
    · rw [hother j hj] at hp
      exact h.own j req' res' items' count' hp

theorem Flags.store {req : Request} {res : CSeckillResult} {items : List Request} {count : Nat}
    (h : Flags e) (hpc : (e.shards i).worker.pc = .flag req res items count)
    (hflag : e'.shared.soldOut = (e.shared.storeFlag (e.shards i).worker req.skuId).soldOut)
    (hstock : (e'.shards i).worker.inventory = (e.shards i).worker.inventory)
    (hpc' : (e'.shards i).worker.pc = .notify res items count)
    (hother : ∀ j, j ≠ i → e'.shards j = e.shards j) : Flags e' := by
  have hown := h.own i req res items count hpc
  have hinv : ∀ sku, (e'.owner sku).inventory = (e.owner sku).inventory := by
    intro sku
    by_cases hi : shardIdx sku = i
    · rw [State.owner_eq hi,State.owner_eq hi,hstock]
    · rw [State.owner,hother _ hi]
      rfl
  have hsku : ∀ {sku}, req.skuId = sku → e.owner sku = (e.shards i).worker := by
    rintro sku rfl
    exact State.owner_eq hown
  refine ⟨fun sku => ?_,fun sku hs => ?_,fun sku hl hs => ?_,fun j req' res' items' count' hp => ?_⟩
  · rw [hflag,storeFlag_soldOut,← h.listed sku]
    split
    · rename_i hs
      simp [hs.2.2]
    · rfl
  · rw [hinv]
    rw [hflag,storeFlag_soldOut] at hs
    split at hs
    · rename_i hz
      rw [hsku hz.1]
      exact hz.2.1
    · exact h.right sku hs
  · rw [hinv] at hs
    rw [hflag,storeFlag_soldOut]
    rcases h.complete sku hl hs with hset | hst
    · left
      simp [hset]
    · by_cases hi : shardIdx sku = i
      · left
        rw [State.owner_eq hi] at hst hs
        have hreq : req.skuId = sku := by simpa [Worker.storing,hpc] using hst
        rw [if_pos ⟨hreq,hs,by rw [h.listed]; exact hl⟩]
      · right
        rw [State.owner,hother _ hi]
        exact hst
  · by_cases hj : j = i
    · subst hj
      rw [hpc'] at hp
      cases hp
    · rw [hother j hj] at hp
      exact h.own j req' res' items' count' hp

variable [DecidableEq κ]

theorem Flags.work {inp : WorkerInput} (h : Flags e) (hf : Fifo (e.shards i))
    (hc : Clients Sellable e) (hn : e.work i inp = some e') : Flags e' := by
  obtain ⟨⟨sh,w⟩,hw,rfl⟩ := Option.map_eq_some_iff.mp hn
  have hself := { e with shared := sh }.setShard_shards_self i { e.shards i with worker := w }
  have hother : ∀ j, j ≠ i →
      ({ e with shared := sh }.setShard i { e.shards i with worker := w }).shards j = e.shards j :=
    fun j hj => State.setShard_shards_of_ne hj
  have hkeep : sh.soldOut = e.shared.soldOut → w.inventory = (e.shards i).worker.inventory →
      (w.pc = (e.shards i).worker.pc ∨ (∀ sku, ¬ (e.shards i).worker.storing sku) ∧
        ∀ req res items count, w.pc ≠ .flag req res items count) →
      Flags ({ e with shared := sh }.setShard i { e.shards i with worker := w }) := by
    intro hflag hstock hpc
    refine h.frame hflag (fun j => ?_) (fun j => ?_)
    · by_cases hj : j = i
      · subst hj
        rw [hself]
        exact hstock
      · rw [hother j hj]
    · by_cases hj : j = i
      · subst hj
        rw [hself]
        exact hpc
      · rw [hother j hj]
        exact .inl rfl
  cases Worker.step_cases hw with
  | @process req items count _ _ pc step =>
    have hnot : ∀ sku, ¬ (e.shards i).worker.storing sku := by simp [Worker.storing,pc]
    cases step with
    | decided id limit fresh =>
      have hmem : req ∈ (e.shards i).worker.batchBuffer := by simp [Worker.batchBuffer,pc,Loop.items]
      obtain ⟨c,hadm⟩ := hf.batch_admitted hc hmem
      obtain ⟨hown,hok⟩ := hadm.sellable id limit
      exact h.decide pc hok.1 hown rfl (by rw [hself]) hother
    | _ => exact hkeep rfl rfl (.inr ⟨hnot,by simp [Worker.take]⟩)
  | @flag req res items count pc =>
    refine h.store pc rfl ?_ (by rw [hself]) hother
    rw [hself]
    obtain ⟨wal,hwal⟩ := (e.shards i).worker.journal_eq req res inp.systemNow
    rw [hwal]
  | ask recheck pc | empty recheck pc =>
    refine hkeep rfl rfl (.inr ⟨?_,?_⟩) <;> cases recheck <;> simp_all [Worker.storing]
  | publish pc next => exact hkeep rfl rfl (.inl rfl)
  | taken _ pc | consume _ pc | again pc | busy pc | idle pc | offer pc | published pc | refused pc
  | addCount pc => exact hkeep rfl rfl (.inr ⟨by simp [Worker.storing,pc],by simp⟩)

theorem State.next_soldOut {a : Act κ} (hn : e.next a = some e') (hw : ∀ i inp, a ≠ .work i inp) :
    e'.shared.soldOut = e.shared.soldOut := by
  cases a with
  | work i inp => exact absurd rfl (hw i inp)
  | stop => rw [State.stopEngine_shared hn]
  | _ =>
    simp only [State.next,State.start,State.client,State.dispatch] at hn
    repeat' split at hn
    all_goals first
      | (obtain ⟨q,-,rfl⟩ := Option.map_eq_some_iff.mp hn; rfl)
      | (cases hn <;> rfl)

theorem Flags.next {a : Act κ} (h : Flags e) (hf : ∀ i, Fifo (e.shards i)) (hc : Clients Sellable e)
    (hn : e.next a = some e') : Flags e' := by
  by_cases hw : ∃ i inp, a = .work i inp
  · obtain ⟨i,inp,rfl⟩ := hw
    exact h.work (hf i) hc hn
  · have hworker : ∀ i, (e'.shards i).worker.inventory = (e.shards i).worker.inventory ∧
        (e'.shards i).worker.pc = (e.shards i).worker.pc := by
      intro i
      rcases State.next_shard hn i with hs | hs
      · rw [hs]
        exact ⟨rfl,rfl⟩
      · generalize e'.shards i = s' at hs
        cases hs with
        | work _ => exact absurd ⟨i,_,rfl⟩ hw
        | _ => exact ⟨rfl,rfl⟩
    exact h.frame (State.next_soldOut hn fun i inp ha => hw ⟨i,inp,ha⟩) (fun i => (hworker i).1)
      fun i => .inl (hworker i).2

theorem run_flags {sold enq deq barrier : UInt64} {as : List (Act κ)}
    (hr : system.Run (initEngine sold enq deq barrier) as e)
    (ha : system.Along (Admits Sellable) (initEngine sold enq deq barrier) as) : Flags e := by
  have hinv : (∀ i, Fifo (e.shards i)) ∧ Clients Sellable e ∧ Flags e := by
    refine hr.invariant_along (I := fun e => (∀ i, Fifo (e.shards i)) ∧ Clients Sellable e ∧ Flags e)
      ?_ ha ⟨fun _ => startShard_fifo,initEngine_clients _ _ _ _,initEngine_flags _ _ _ _⟩
    intro e a e' ⟨hf,hc,h⟩ ha hn
    refine ⟨fun i => ?_,hc.next ha hn,h.next hf hc hn⟩
    rcases State.next_shard hn i with hs | hs
    · rw [hs]; exact hf i
    · exact (hf i).step hs
  exact hinv.2.2

theorem State.next_set {a : Act κ} {sku : Int64} (hn : e.next a = some e')
    (h : e.shared.soldOut sku = some true) : e'.shared.soldOut sku = some true := by
  by_cases hw : ∃ i inp, a = .work i inp
  · obtain ⟨i,inp,rfl⟩ := hw
    obtain ⟨⟨sh,w⟩,hw,rfl⟩ := Option.map_eq_some_iff.mp hn
    change sh.soldOut sku = some true
    cases Worker.step_cases hw with
    | flag pc =>
      rw [storeFlag_soldOut]
      split
      · rfl
      · exact h
    | process pc step => cases step <;> exact h
    | _ => exact h
  · rw [State.next_soldOut hn fun i inp ha => hw ⟨i,inp,ha⟩]
    exact h

theorem run_set {as : List (Act κ)} {sku : Int64} (hr : system.Run e as e')
    (h : e.shared.soldOut sku = some true) : e'.shared.soldOut sku = some true :=
  hr.invariant (I := fun e => e.shared.soldOut sku = some true) (fun _ _ _ h hn => State.next_set hn h) h

end Steps
end Flashsale.Engine
