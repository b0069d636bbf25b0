import Flashsale.BackendSteps
import Mathlib.Data.Finset.Lattice.Lemmas
set_option autoImplicit false

namespace Flashsale.Cache
variable {g : Gate} {ms ms' : List Member}

theorem Gate.zrem_congr (h : ∀ m, m ∈ ms ↔ m ∈ ms') : g.zrem ms = g.zrem ms' := by
  simp [Gate.zrem,h]

@[simp] theorem Gate.zrem_nil : g.zrem [] = g := by simp [Gate.zrem]

theorem Gate.zrem_zrem : (g.zrem ms).zrem ms' = g.zrem (ms ++ ms') := by
  simp only [Gate.zrem,List.filter_filter,List.mem_append,not_or,Bool.decide_and]
  congr 1
  exact List.filter_congr fun p _ => Bool.and_comm _ _

end Flashsale.Cache

namespace Flashsale.Backend
open Cache Transition

def Redis.removePendingRequest (r : Redis) (m : Member) : Redis :=
  (r.run (.zrem m.skuId [m])).2

def Redis.cleanup (r : Redis) (t : CleanupTask) : Redis :=
  if t.status = 1 then ((r.run (.setnx t.requestId)).2).removePendingRequest t.member else r

def Redis.cleanups (r : Redis) (batch : List CleanupTask) : Redis := batch.foldl Redis.cleanup r

def doneIds (batch : List CleanupTask) : Finset UInt64 :=
  ((successes batch).map CleanupTask.requestId).toFinset

def Redis.exec (r : Redis) (cs : List Command) : Redis := cs.foldl (fun r c => (r.run c).2) r

/-- The members a batch acknowledges are gone from the gates of their SKUs, and its
request ids are done. -/
def Redis.cleaned (r : Redis) (batch : List CleanupTask) : Redis :=
  { r with
    gates := fun skuId => (r.gates skuId).zrem (membersBySku batch skuId)
    done := r.done ∪ doneIds batch }

/-- `cleanupWorker`'s flush when Redis answers; an empty batch is not flushed. -/
def cleanupFlush (batch : List CleanupTask) (skus : List Int64) : List Act :=
  if batch = [] then []
  else .flushTasks skus :: List.replicate ((pipelineOf batch skus).length + 1) (.pipe .answered)

section Batch
variable {r : Redis} {t : CleanupTask} {batch batch' : List CleanupTask} {skus : List Int64}
  {m : Member} {skuId : Int64}

theorem mem_membersBySku : m ∈ membersBySku batch skuId ↔
    ∃ t ∈ batch, t.status = 1 ∧ t.skuId = skuId ∧ t.member = m := by
  simp [membersBySku,successes,and_assoc,and_left_comm]

theorem mem_doneIds {id : UInt64} :
    id ∈ doneIds batch ↔ ∃ t ∈ batch, t.status = 1 ∧ t.requestId = id := by
  simp [doneIds,successes,and_assoc]

theorem mem_batchSkus : skuId ∈ batchSkus batch ↔ ∃ t ∈ batch, t.status = 1 ∧ t.skuId = skuId := by
  simp [batchSkus,successes,and_assoc]

theorem membersBySku_perm (h : batch.Perm batch') :
    (membersBySku batch skuId).Perm (membersBySku batch' skuId) :=
  ((h.filter _).filter _).map _

theorem Redis.cleaned_perm (h : batch.Perm batch') : r.cleaned batch = r.cleaned batch' := by
  have hgates : ∀ skuId, (r.gates skuId).zrem (membersBySku batch skuId) =
      (r.gates skuId).zrem (membersBySku batch' skuId) := fun skuId =>
    Gate.zrem_congr fun m => (membersBySku_perm h).mem_iff
  have hdone : doneIds batch = doneIds batch' :=
    List.toFinset_eq_of_perm _ _ ((h.filter _).map _)
  simp [Redis.cleaned,hgates,hdone]

theorem Redis.cleaned_nil : r.cleaned [] = r := by
  simp [Redis.cleaned,membersBySku,doneIds,successes]

theorem Redis.cleaned_cons : r.cleaned (t :: batch) = (r.cleanup t).cleaned batch := by
  by_cases hs : t.status = 1
  · have hgate : ∀ skuId, (r.gates skuId).zrem (membersBySku (t :: batch) skuId) =
        (((r.cleanup t).gates skuId).zrem (membersBySku batch skuId)) := by
      intro skuId
      by_cases hk : t.skuId = skuId
      · subst hk
        simp [Redis.cleanup,hs,Redis.removePendingRequest,Redis.run,Redis.setGate,membersBySku,
          successes,CleanupTask.member,Gate.zrem_zrem]
      · have hk' : skuId ≠ t.skuId := fun h => hk h.symm
        simp [Redis.cleanup,hs,Redis.removePendingRequest,Redis.run,Redis.setGate,membersBySku,
          successes,CleanupTask.member,hk,hk']
    have hdone : r.done ∪ doneIds (t :: batch) = (r.cleanup t).done ∪ doneIds batch := by
      have hid : doneIds (t :: batch) = insert t.requestId (doneIds batch) := by
        simp [doneIds,successes,hs]
      have hclean : (r.cleanup t).done = insert t.requestId r.done := by
        simp [Redis.cleanup,hs,Redis.removePendingRequest,Redis.run,Redis.setGate]
      rw [hid,hclean,Finset.union_insert,Finset.insert_union]
    simp only [Redis.cleaned,hgate,hdone]
    simp [Redis.cleanup,hs,Redis.removePendingRequest,Redis.run,Redis.setGate]
  · simp [Redis.cleanup,hs,Redis.cleaned,membersBySku,doneIds,successes]

theorem Redis.cleanups_eq : r.cleanups batch = r.cleaned batch := by
  induction batch generalizing r with
  | nil => exact r.cleaned_nil.symm
  | cons t batch ih => rw [Redis.cleaned_cons,← ih]; rfl

theorem Redis.exec_cons (c : Command) (cs : List Command) :
    r.exec (c :: cs) = (r.run c).2.exec cs := rfl

theorem Redis.exec_append (cs ds : List Command) : r.exec (cs ++ ds) = (r.exec cs).exec ds :=
  List.foldl_append

theorem Redis.exec_setnx (ids : List UInt64) (r : Redis) :
    r.exec (ids.map .setnx) = { r with done := r.done ∪ ids.toFinset } := by
  induction ids generalizing r with
  | nil => simp [Redis.exec]
  | cons id ids ih =>
    rw [List.map_cons,Redis.exec_cons,ih]
    simp [Redis.run]

theorem Redis.exec_zrem (f : Int64 → List Member) {skus : List Int64} (h : skus.Nodup) (r : Redis) :
    r.exec (skus.map fun skuId => .zrem skuId (f skuId)) =
      { r with gates := fun skuId =>
        if skuId ∈ skus then (r.gates skuId).zrem (f skuId) else r.gates skuId } := by
  induction skus generalizing r with
  | nil => simp [Redis.exec]
  | cons k skus ih =>
    obtain ⟨hk,hnodup⟩ := List.nodup_cons.mp h
    rw [List.map_cons,Redis.exec_cons,ih hnodup]
    simp only [Redis.run,Redis.setGate]
    congr 1
    funext skuId
    by_cases hs : skuId = k
    · subst hs
      simp [hk]
    · simp [hs]

/-- The pipeline cleans, whatever the order in which the map is iterated. -/
theorem Redis.exec_pipelineOf (h : skus.Perm (batchSkus batch)) :
    r.exec (pipelineOf batch skus) = r.cleaned batch := by
  have hnodup : skus.Nodup := h.nodup_iff.mpr (List.nodup_dedup _)
  have hnone : ∀ skuId, skuId ∉ skus → membersBySku batch skuId = [] := by
    intro skuId hk
    refine List.eq_nil_iff_forall_not_mem.mpr fun m hm => hk (h.mem_iff.mpr ?_)
    obtain ⟨t,ht,hs,he,-⟩ := mem_membersBySku.mp hm
    exact mem_batchSkus.mpr ⟨t,ht,hs,he⟩
  rw [pipelineOf,Redis.exec_append,Redis.exec_zrem _ hnodup,
    show (successes batch).map (fun t => Command.setnx t.requestId) =
      ((successes batch).map CleanupTask.requestId).map Command.setnx by simp,Redis.exec_setnx]
  simp only [Redis.cleaned,doneIds]
  congr 1
  funext skuId
  split
  · rfl
  · rw [hnone skuId ‹_›,Gate.zrem_nil]

end Batch

section Flush
variable {ι : Type} [DecidableEq ι] {s : State ι} {i : ι} {x : Instance}

theorem pipe_run {cs : List Command} (hx : s.instances i = some x) (hp : x.pipeline = some cs) :
    ∃ t, system.Run s (List.replicate (cs.length + 1) (i,.pipe .answered)) t ∧
      t.world.redis = s.world.redis.exec cs ∧
      t.instances = Function.update s.instances i (some { x with pipeline := none }) := by
  induction cs generalizing s x with
  | nil =>
    refine ⟨⟨s.world,Function.update s.instances i (some { x with pipeline := none })⟩,.single ?_,
      rfl,rfl⟩
    simp only [system,State.next,hx,Instance.next,Instance.pipe,hp]
    rfl
  | cons c cs ih =>
    let s' : State ι :=
      { world := { s.world with
          redis := (s.world.redis.run c).2
          acked := c.acks + s.world.acked }
        instances := Function.update s.instances i (some { x with pipeline := some cs }) }
    have hstep : system.next s (i,.pipe .answered) = some s' := by
      simp only [system,State.next,hx,Instance.next,Instance.pipe,hp]
      rfl
    obtain ⟨t,hr,hredis,hinst⟩ := ih (s := s') (Function.update_self ..) rfl
    refine ⟨t,.cons hstep hr,hredis,?_⟩
    rw [hinst,Function.update_idem]

theorem cleanup_flush {skus : List Int64} (hx : s.instances i = some x) (hp : x.pipeline = none)
    (hskus : skus.Perm (batchSkus x.cleanupBatch)) :
    ∃ t, system.Run s ((cleanupFlush x.cleanupBatch skus).map (i,·)) t ∧
      t.world.redis = s.world.redis.cleaned x.cleanupBatch ∧
      t.instances = Function.update s.instances i (some { x with
        rollbacks := (failures x.cleanupBatch : Multiset CleanupTask).map
          (fun t => ⟨t.member,0⟩) + x.rollbacks
        cleanupBatch := [] }) := by
  by_cases hb : x.cleanupBatch = []
  · refine ⟨s,?_,?_,?_⟩
    · rw [hb,cleanupFlush,if_pos rfl]
      exact .nil s
    · rw [hb,Redis.cleaned_nil]
    · have hsame : { x with
          rollbacks := (failures x.cleanupBatch : Multiset CleanupTask).map
            (fun t => (⟨t.member,0⟩ : Rollback)) + x.rollbacks
          cleanupBatch := [] } = x := by
        simp [hb,failures]
        rw [← hb]
      rw [hsame,← hx,Function.update_eq_self]
  · obtain ⟨task,tasks,htasks⟩ := List.exists_cons_of_ne_nil hb
    let y : Instance := { x with
      pipeline := some (pipelineOf x.cleanupBatch skus)
      rollbacks := (failures x.cleanupBatch : Multiset CleanupTask).map
        (fun t => ⟨t.member,0⟩) + x.rollbacks
      cleanupBatch := [] }
    have hflush : x.flushTasks skus = some y := by
      unfold Instance.flushTasks
      simp only [hp,htasks] at hskus ⊢
      rw [if_pos hskus]
      simp only [y,htasks]
    have hstep : system.next s (i,.flushTasks skus) =
        some { world := s.world, instances := Function.update s.instances i (some y) } := by
      simp only [system,State.next,hx,Instance.next,hflush]
      rfl
    obtain ⟨t,hr,hredis,hinst⟩ := pipe_run (s := ⟨s.world,Function.update s.instances i (some y)⟩)
      (Function.update_self ..) (rfl : y.pipeline = some _)
    refine ⟨t,?_,?_,?_⟩
    · rw [cleanupFlush,if_neg hb,List.map_cons,List.map_replicate]
      exact .cons hstep hr
    · rw [hredis,Redis.exec_pipelineOf hskus]
    · rw [hinst,Function.update_idem,← hp]

/-- What the flush of a batch leaves: Redis as the tasks one by one would, a rollback for
each task that is no success, and an empty batch. -/
structure Flushed (i : ι) (x : Instance) (s t : State ι) : Prop where
  redis : t.world.redis = s.world.redis.cleanups x.cleanupBatch
  members : ∀ skuId m, m ∈ (t.world.redis.gates skuId).members ↔
    m ∈ (s.world.redis.gates skuId).members ∧
      ¬ ∃ task ∈ x.cleanupBatch, task.status = 1 ∧ task.skuId = skuId ∧ task.member = m
  untouched : ∀ skuId, (∀ task ∈ x.cleanupBatch, task.status = 1 → task.skuId ≠ skuId) →
    t.world.redis.gates skuId = s.world.redis.gates skuId
  done : ∀ id, id ∈ t.world.redis.done ↔
    id ∈ s.world.redis.done ∨ ∃ task ∈ x.cleanupBatch, task.status = 1 ∧ task.requestId = id
  instances : t.instances = Function.update s.instances i (some { x with
    rollbacks := (x.cleanupBatch.filter (·.status ≠ 1) : Multiset CleanupTask).map
      (fun task => ⟨task.member,0⟩) + x.rollbacks
    cleanupBatch := [] })

theorem failures_perm {batch batch' : List CleanupTask} (h : batch.Perm batch') :
    (failures batch : Multiset CleanupTask) = failures batch' := Multiset.coe_eq_coe.mpr (h.filter _)

/-- A flush with no Redis error is the tasks one by one, in any order. -/
theorem flush_one_by_one {skus : List Int64} (hx : s.instances i = some x)
    (hp : x.pipeline = none) (hskus : skus.Perm (batchSkus x.cleanupBatch)) :
    ∃ t, system.Run s ((cleanupFlush x.cleanupBatch skus).map (i,·)) t ∧ Flushed i x s t ∧
      ∀ batch' skus', batch'.Perm x.cleanupBatch → skus'.Perm (batchSkus batch') →
        ∃ t', system.Run { s with
            instances := Function.update s.instances i (some { x with cleanupBatch := batch' }) }
          ((cleanupFlush batch' skus').map (i,·)) t' ∧
          t'.world.redis = t.world.redis ∧ t'.instances = t.instances := by
  obtain ⟨t,hr,hredis,hinst⟩ := cleanup_flush hx hp hskus
  refine ⟨t,hr,?_,fun batch' skus' hbatch hskus' => ?_⟩
  · refine ⟨hredis.trans Redis.cleanups_eq.symm,fun skuId m => ?_,fun skuId hnone => ?_,
      fun id => ?_,hinst⟩
    · rw [hredis,← mem_membersBySku]
      exact Gate.mem_zrem
    · have hempty : membersBySku x.cleanupBatch skuId = [] := by
        refine List.eq_nil_iff_forall_not_mem.mpr fun m hm => ?_
        obtain ⟨task,ht,hs,hk,-⟩ := mem_membersBySku.mp hm
        exact hnone task ht hs hk
      rw [hredis]
      simp only [Redis.cleaned,hempty,Gate.zrem_nil]
    · rw [hredis,← mem_doneIds]
      exact Finset.mem_union
  · obtain ⟨t',hr',hredis',hinst'⟩ := cleanup_flush
      (s := { s with
        instances := Function.update s.instances i (some { x with cleanupBatch := batch' }) })
      (Function.update_self ..) hp hskus'
    refine ⟨t',hr',?_,?_⟩
    · rw [hredis,hredis']
      exact Redis.cleaned_perm hbatch
    · rw [hinst,hinst',Function.update_idem,failures_perm hbatch]

end Flush

def mixedBatch : List CleanupTask :=
  [⟨999,7,1,5,1⟩,⟨123,8,1,6,2⟩,⟨999,9,1,7,1⟩,⟨999,7,1,5,1⟩]

def mixedStart : State Unit :=
  { (warmStart : State Unit) with
    instances := fun _ => some { startConsumer with cleanupBatch := mixedBatch } }

theorem flush_one_by_one_mixed : ∃ t,
    system.Run mixedStart ((cleanupFlush mixedBatch [999]).map ((),·)) t ∧
      t.world.redis = mixedStart.world.redis.cleanups mixedBatch :=
  have hskus : [999].Perm (batchSkus mixedBatch) := by decide
  have ⟨t,hr,hf,_⟩ := flush_one_by_one (s := mixedStart) (i := ()) rfl rfl hskus
  ⟨t,hr,hf.redis⟩

end Flashsale.Backend
