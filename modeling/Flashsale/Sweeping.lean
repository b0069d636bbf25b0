import Flashsale.CrashRecovery
import Mathlib
set_option autoImplicit false

/-!
The sweeper takes a stale pending member without a row for a lost request. The
orders still on their way to the database show when it is not lost.
-/

namespace Flashsale.Backend
open Cache Engine Transition

def Handler.row (h : Handler) : Option Order := h.request.map rowOf

def saleRow (res : CSeckillResult) : Option Order :=
  if res.status = 1 ∧ res.requestId ≤ benchmarkLimit then some (orderOf res) else none

def ResultWorker.row : ResultWorker → Option Order
  | .persist order _ => some order
  | .poll | .cleanup _ => none

@[simp] theorem ResultWorker.row_poll : ResultWorker.poll.row = none := rfl

@[simp] theorem ResultWorker.row_persist (order : Order) (task : CleanupTask) :
    (ResultWorker.persist order task).row = some order := rfl

@[simp] theorem ResultWorker.row_cleanup (task : CleanupTask) :
    (ResultWorker.cleanup task).row = none := rfl

/-- A process holds the order, or what it will be made from. -/
def Travels (x : Instance) (o : Order) : Prop :=
  (∃ h ∈ x.handlers, h.row = some o) ∨ (∃ r ∈ x.engine.accepted, rowOf (memberOf r) = o) ∨
    (∃ res ∈ x.engine.results, saleRow res = some o) ∨ (∃ wk ∈ x.workers, wk.row = some o) ∨
    o ∈ x.orderChan ∨ o ∈ x.dbBatch

instance (x : Instance) (o : Order) : Decidable (Travels x o) := by
  have (α : Type) (s : Multiset α) (p : α → Prop) [DecidablePred p] :
      Decidable (∃ a ∈ s, p a) := Multiset.decidableExistsMultiset
  unfold Travels
  infer_instance

theorem rowOf_creqOf (m : Member) : rowOf (memberOf (creqOf m)) = rowOf m := by
  simp [rowOf,memberOf,creqOf]

theorem row_received (res : CSeckillResult) : (received res).row = saleRow res := by
  unfold received saleRow
  by_cases hs : res.status = 1
  · by_cases hid : res.requestId > benchmarkLimit
    · simp [hs,hid,UInt64.not_le.mpr hid]
    · simp [hs,hid,UInt64.not_lt.mp hid]
  · simp [hs]

theorem saleRow_eq {decided : Finset UInt64} {r : Payload} {res : CSeckillResult} {o : Order}
    (h : Outcome decided r (some res)) (ho : saleRow res = some o) : rowOf (memberOf r) = o := by
  obtain ⟨hid,-,-,hout⟩ := h
  unfold saleRow at ho
  split at ho
  · rename_i hsale
    rw [if_neg (by rw [← hid]; exact UInt64.not_lt.mpr hsale.2)] at hout
    rw [← Option.some.inj ho,← hout.1]
    simp [rowOf,memberOf,orderOf,CSeckillResult.payload]
  · cases ho

section Steps
variable {x x' : Instance} {w w' : World} {a : Act} {o : Order}

theorem travels_goto {h : Handler} : Travels (x.goto h) o ↔ h.row = some o ∨ Travels x o := by
  simp only [Travels,Instance.goto,Multiset.mem_cons,exists_eq_or_imp,or_assoc]

theorem Travels.of_handle {h : Handler} {net : Net} {code : Int32} {now : Int}
    (ht : Travels ((x.handle w h net code now).2) o) : Travels (x.goto h) o := by
  cases h with
  | check m =>
    simp only [Instance.handle] at ht
    split at ht
    · exact travels_goto.mpr (.inr ht)
    · have ht := travels_goto.mp ht
      exact travels_goto.mpr ht
  | deduct m =>
    simp only [Instance.handle] at ht
    split at ht
    · exact travels_goto.mpr (.inr ht)
    · split at ht
      · exact travels_goto.mpr (.inr ht)
      split at ht
      · exact travels_goto.mpr (.inr ht)
      split at ht
      · exact travels_goto.mpr (.inr ht)
      · have ht := travels_goto.mp ht
        exact travels_goto.mpr ht
  | register m =>
    have ht := travels_goto.mp ht
    exact travels_goto.mpr ht
  | enqueue m =>
    simp only [Instance.handle] at ht
    split at ht
    · have hrow : (Handler.enqueue m).row = some (rowOf m) := rfl
      rw [travels_goto,hrow,Option.some.injEq]
      simp only [Travels,Abstract.accept,Multiset.mem_cons,exists_eq_or_imp,rowOf_creqOf] at ht ⊢
      grind
    · refine travels_goto.mpr ((travels_goto.mp ht).imp_left fun hr => ?_)
      cases hr
  | rollback r response =>
    simp only [Instance.handle] at ht
    split at ht
    · exact travels_goto.mpr (.inr ht)
    · have ht := travels_goto.mp ht
      exact travels_goto.mpr ht

theorem Travels.of_process {r : Payload} {out : Option CSeckillResult}
    (h : x.process w r out = some (w',x')) (ht : Travels x' o) : Travels x o := by
  obtain ⟨e,he,hx⟩ := Option.map_eq_some_iff.mp h
  cases hx
  unfold Abstract.process at he
  split at he
  · rename_i hr
    obtain ⟨rest,hrest⟩ := Multiset.exists_cons_of_mem hr.1
    cases he
    simp only [Travels,hrest,Multiset.erase_cons_head,Multiset.mem_cons,exists_eq_or_imp] at ht ⊢
    cases out with
    | none =>
      simp only [Option.elim_none] at ht
      grind
    | some res =>
      simp only [Option.elim_some,Multiset.mem_cons,exists_eq_or_imp] at ht
      have := saleRow_eq (o := o) hr.2
      grind
  · cases he

theorem Travels.of_poll {res : CSeckillResult} (h : x.poll res = some x') (ht : Travels x' o) :
    Travels x o := by
  obtain ⟨results,workers,hresults,hworkers,rfl⟩ := poll_eq h
  simp only [Travels,hresults,hworkers,Multiset.mem_cons,exists_eq_or_imp,row_received] at ht ⊢
  grind

theorem Travels.of_push {wk : ResultWorker} (h : x.push wk = some x') (ht : Travels x' o) :
    Travels x o := by
  cases push_cases h with
  | @order order task workers hworkers _ =>
    simp only [Travels,hworkers,Multiset.mem_cons,exists_eq_or_imp,ResultWorker.row_persist,
      ResultWorker.row_cleanup,List.mem_append,List.mem_singleton,Option.some.injEq,
      @eq_comm _ o order,reduceCtorEq] at ht ⊢
    grind
  | task hworkers _ =>
    simp only [Travels,hworkers,Multiset.mem_cons,exists_eq_or_imp,ResultWorker.row_poll,
      ResultWorker.row_cleanup,reduceCtorEq] at ht ⊢
    grind

theorem Travels.of_receiveOrder (h : x.receiveOrder = some x') (ht : Travels x' o) :
    Travels x o := by
  obtain ⟨order,rest,hchan,-,rfl⟩ := receiveOrder_eq h
  simp only [Travels,hchan,List.mem_cons,List.mem_append,List.not_mem_nil] at ht ⊢
  grind

theorem Travels.of_next (h : x.next w a = some (w',some x')) (ht : Travels x' o) :
    Travels x o ∨ ∃ m, a = .receive m ∧ rowOf m = o := by
  cases Instance.next_cases h with
  | receive m =>
    rcases travels_goto.mp ht with hrow | ht
    · exact .inr ⟨m,rfl,Option.some.inj hrow⟩
    · exact .inl ht
  | handle net code now called =>
    cases called
    exact .inl (.of_handle ht)
  | process step => exact .inl (.of_process step ht)
  | poll step => exact .inl (.of_poll step ht)
  | push step => exact .inl (.of_push step ht)
  | receiveOrder step => exact .inl (.of_receiveOrder step ht)
  | flushOrders step =>
    obtain ⟨-,rfl,rfl⟩ := flushOrders_eq step
    simp only [Travels,List.not_mem_nil] at ht ⊢
    grind
  | receiveTask step =>
    obtain ⟨task,rest,-,-,-,rfl⟩ := receiveTask_eq step
    exact .inl ht
  | flushTasks step =>
    obtain ⟨-,-,-,rfl⟩ := flushTasks_eq step
    exact .inl ht
  | pipe step => cases pipe_cases step <;> exact .inl ht
  | undo step =>
    obtain ⟨rest,-,rfl,rfl⟩ := undo_eq step
    exact .inl ht
  | sweep step =>
    unfold Instance.sweep at step
    repeat' split at step
    all_goals cases step
    all_goals exact .inl ht

theorem travels_of_inserted (h : o ∈ x.inserted a) : Travels x o := by
  cases a with
  | flushOrders ok =>
    cases ok
    · cases h
    · exact .inr (.inr (.inr (.inr (.inr h))))
  | _ => cases h

end Steps

section Runs
variable {ι : Type} [DecidableEq ι] {s t : State ι} {a : ι × Act}

/-- The row neither is in the database nor travels in any process. -/
def Gone (s : State ι) (o : Order) : Prop :=
  o ∉ s.world.orders ∧ ∀ i, ∀ x ∈ s.instances i, ¬Travels x o

def Act.request : Act → Option Member
  | .receive m => some m
  | _ => none

/-- A sweeper's rollback takes effect only on a request that is gone, and a
request that a sweeper rolled back is not sent again. -/
def SweepsLost (s : State ι) (a : ι × Act) : Prop :=
  (∀ x ∈ s.instances a.1, ∀ m ∈ x.sweeps s.world a.2, Gone s (rowOf m)) ∧
    ∀ m ∈ a.2.request, ∀ m' ∈ s.world.swept, rowOf m' ≠ rowOf m

instance [Fintype ι] (s : State ι) (o : Order) : Decidable (Gone s o) := by
  unfold Gone
  infer_instance

instance [Fintype ι] (s : State ι) (a : ι × Act) : Decidable (SweepsLost s a) := by
  unfold SweepsLost
  infer_instance

theorem Gone.next {o : Order} (h : Gone s o) (hn : s.next a = some t)
    (ha : ∀ m ∈ a.2.request, rowOf m ≠ o) : Gone t o := by
  obtain ⟨x,y,hx,hstep,hinst⟩ := State.next_cases hn
  have hout := Instance.next_outside hstep
  refine ⟨?_,?_⟩
  · rw [hout.orders]
    intro ho
    rcases mem_insertOrders ho with ho | ho
    · exact h.1 ho
    · exact h.2 _ x hx (travels_of_inserted ho)
  · intro i z hz ht
    rw [Option.mem_def,hinst] at hz
    by_cases hi : i = a.1
    · subst hi
      rw [Function.update_self] at hz
      subst hz
      rcases Travels.of_next hstep ht with ht | ⟨m,hm,ho⟩
      · exact h.2 _ x hx ht
      · exact ha m (by rw [hm]; rfl) ho
    · rw [Function.update_of_ne hi] at hz
      exact h.2 i z hz ht

def SweptGone (s : State ι) : Prop := ∀ m ∈ s.world.swept, Gone s (rowOf m)

theorem SweptGone.next (h : SweptGone s) (hp : SweepsLost s a) (hn : s.next a = some t) :
    SweptGone t := by
  obtain ⟨x,y,hx,hstep,-⟩ := State.next_cases hn
  have hswept := (Instance.next_outside hstep).swept
  intro m hm
  rw [hswept] at hm
  cases hs : x.sweeps s.world a.2 with
  | none =>
    rw [hs] at hm
    exact (h m hm).next hn fun m' hm' he => hp.2 m' hm' m hm he.symm
  | some m₀ =>
    rw [hs,Option.elim_some,Multiset.mem_cons] at hm
    rcases hm with rfl | hm
    · -- a step that sweeps receives nothing
      refine (hp.1 x hx m hs).next hn fun m' hm' => ?_
      cases ha : a.2 <;> rw [ha] at hs hm' <;> cases hm'
      cases hs
    · exact (h m hm).next hn fun m' hm' he => hp.2 m' hm' m hm he.symm

/-- No request is both rolled back by a sweeper and persisted, in the runs where
the sweepers roll back lost requests only. -/
theorem swept_not_persisted {s₀ : State ι} {as : List (ι × Act)} (hinit : system.init s₀)
    (h : system.Run s₀ as s) (hp : system.Along SweepsLost s₀ as) :
    ∀ m ∈ s.world.swept, rowOf m ∉ s.world.orders := by
  have hgone : SweptGone s := by
    refine h.invariant_along (P := SweepsLost) (fun _ _ _ h hp hn => h.next hp hn) hp ?_
    obtain ⟨stock,skus,orders,rfl⟩ := hinit
    intro m hm
    cases hm
  exact fun m hm => (hgone m hm).1

end Runs

/-- The sweeper of a process, from its tick to the rollback of `sale`. -/
def sweepRun : List Act :=
  [.sweep .answered 31000000 [999] [],.sweep .answered 31000000 [] [sale],
    .sweep .answered 31000000 [] [],.sweep .answered 31000000 [] []]

def slowRun : List (Unit × Act) := (saleRun ++ sweepRun ++ [Act.flushOrders true]).map ((),·)

def slowState : State Unit := (system.exec warmStart slowRun).get (by decide +kernel)

theorem slowState_run : system.Run warmStart slowRun slowState :=
  System.run_of_exec (Option.some_get _).symm

/-- The process of `sale` ends before its engine decides, and another one sweeps. -/
def lostRun : List (Bool × Act) :=
  [.receive sale,.handle (.check sale) .answered 0 0,.handle (.deduct sale) .answered 0 0,
    .handle (.register sale) .answered 0 0,.handle (.enqueue sale) .answered 1 0,
    .crash].map (false,·) ++ sweepRun.map (true,·)

def lostState : State Bool := (system.exec warmStart lostRun).get (by decide +kernel)

theorem lostState_run : system.Run warmStart lostRun lostState :=
  System.run_of_exec (Option.some_get _).symm

theorem swept_not_persisted_lost :
    lostState.world.swept = {sale} ∧ rowOf sale ∉ lostState.world.orders := by
  have hswept : lostState.world.swept = {sale} := by decide +kernel
  refine ⟨hswept,swept_not_persisted ⟨_,_,_,rfl⟩ lostState_run (by decide +kernel) sale ?_⟩
  simp [hswept]

/-- The row of `sale` waits in `dbWorker`'s batch while a sweeper gives its stock back. -/
theorem sweep_undoes_sale :
    system.Run warmStart slowRun slowState ∧ slowState.world.swept = {sale} ∧
    (slowState.world.redis.gates 999).stock = some 100 ∧
    (slowState.world.redis.gates 999).bought = ∅ ∧ rowOf sale ∈ slowState.world.orders :=
  ⟨slowState_run,by decide +kernel,by decide +kernel,by decide +kernel,by decide +kernel⟩

end Flashsale.Backend
