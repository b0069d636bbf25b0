import Flashsale.BackendSteps
import Mathlib.Algebra.Group.Pi.Lemmas
import Mathlib.Tactic.Abel
set_option autoImplicit false

/-!
Where a deducted request is: not decided yet, sold with its cleanup to come, or
rejected with its rollback to come. A step without errors moves one request on.
-/

namespace Flashsale.Backend
open Cache Engine

inductive Stage where
  | opened
  | selling
  | undoing
  deriving DecidableEq

abbrev Holding := Stage → Multiset Member

def single (st : Stage) (m : Member) : Holding := Pi.single st {m}

def Rollback.held (r : Rollback) : Holding :=
  if r.attempt < maxRetries then single .undoing r.member else 0

def Handler.held : Handler → Holding
  | .check _ | .deduct _ => 0
  | .register m | .enqueue m => single .opened m
  | .rollback r _ => r.held

def CleanupTask.held (t : CleanupTask) : Holding :=
  single (if t.status = 1 then .selling else .undoing) t.member

/-- A benchmark result ends with the worker that polls it. -/
def resultHeld (res : CSeckillResult) : Holding :=
  if res.status = 1 ∧ res.requestId > benchmarkLimit then 0 else (taskOf res).held

def ResultWorker.held : ResultWorker → Holding
  | .poll => 0
  | .persist _ task | .cleanup task => task.held

def Command.held (c : Command) : Holding := Pi.single .selling c.acks

def acceptedHeld (r : Payload) : Holding := single .opened (memberOf r)

def Instance.held (x : Instance) : Holding :=
  (x.handlers.map Handler.held).sum + (x.engine.accepted.map acceptedHeld).sum +
    (x.engine.results.map resultHeld).sum + (x.workers.map ResultWorker.held).sum +
    (x.cleanupChan.map CleanupTask.held).sum + (x.cleanupBatch.map CleanupTask.held).sum +
    ((x.pipeline.getD []).map Command.held).sum + (x.rollbacks.map Rollback.held).sum

theorem sum_groups {α κ μ : Type*} [DecidableEq κ] [AddCommMonoid μ] (f : α → μ) (key : α → κ)
    {ks : List κ} (hn : ks.Nodup) {l : List α} (hk : ∀ a ∈ l, key a ∈ ks) :
    (ks.map fun k => ((l.filter (key · = k)).map f).sum).sum = (l.map f).sum := by
  induction ks generalizing l with
  | nil =>
    cases l with
    | nil => rfl
    | cons a l => cases hk a List.mem_cons_self
  | cons k ks ih =>
    obtain ⟨hk',hn'⟩ := List.nodup_cons.mp hn
    have hrest := ih hn' (l := l.filter (key · ≠ k)) (by
      intro a ha
      obtain ⟨ha,hne⟩ := List.mem_filter.mp ha
      exact (List.mem_cons.mp (hk a ha)).resolve_left (by simpa using hne))
    have hsame : ∀ k' ∈ ks, (l.filter (key · ≠ k)).filter (key · = k') =
        l.filter (key · = k') := by
      intro k' hk''
      rw [List.filter_filter]
      refine List.filter_congr fun a _ => ?_
      have : key a = k' → key a ≠ k := by
        rintro rfl rfl
        exact hk' hk''
      by_cases he : key a = k' <;> simp_all
    have hgroups : (ks.map fun k' => (((l.filter (key · ≠ k)).filter (key · = k')).map f).sum) =
        ks.map fun k' => ((l.filter (key · = k')).map f).sum :=
      List.map_congr_left fun k' hk'' => by rw [hsame k' hk'']
    rw [List.map_cons,List.sum_cons,← hgroups,hrest,← List.sum_append,← List.map_append]
    refine (List.Perm.map f ?_).sum_eq
    simpa using List.filter_append_perm (fun a => decide (key a = k)) l

theorem held_goto (x : Instance) (h : Handler) : (x.goto h).held = h.held + x.held := by
  simp only [Instance.held,Instance.goto,Multiset.map_cons,Multiset.sum_cons]
  abel

theorem held_goto_of_zero (x : Instance) {h : Handler} (hz : h.held = 0) :
    x.held = (x.goto h).held := by rw [held_goto,hz,zero_add]

theorem held_accept (x : Instance) (r : Payload) :
    { x with engine := x.engine.accept r }.held = acceptedHeld r + x.held := by
  simp only [Instance.held,Abstract.accept,Multiset.map_cons,Multiset.sum_cons]
  abel

theorem Rollback.held_zero (m : Member) : (Rollback.mk m 0).held = single .undoing m :=
  if_pos (show 0 < maxRetries by decide)

def ofSku (skuId : Int64) (ms : Multiset Member) : Multiset Member :=
  ms.filter (·.skuId = skuId)

theorem ofSku_add (skuId : Int64) (ms ns : Multiset Member) :
    ofSku skuId (ms + ns) = ofSku skuId ms + ofSku skuId ns := Multiset.filter_add _ _ _

theorem ofSku_zero (skuId : Int64) : ofSku skuId 0 = 0 := rfl

theorem ofSku_singleton (m : Member) : ofSku m.skuId {m} = {m} := by simp [ofSku]

theorem ofSku_singleton_of_ne {skuId : Int64} {m : Member} (h : m.skuId ≠ skuId) :
    ofSku skuId {m} = 0 := by simp [ofSku,Multiset.filter_singleton,h]

theorem ofSku_cons (m : Member) (ms : Multiset Member) :
    ofSku m.skuId (m ::ₘ ms) = m ::ₘ ofSku m.skuId ms := Multiset.filter_cons_of_pos _ rfl

theorem ofSku_cons_of_ne {skuId : Int64} {m : Member} (h : m.skuId ≠ skuId) (ms : Multiset Member) :
    ofSku skuId (m ::ₘ ms) = ofSku skuId ms := Multiset.filter_cons_of_neg _ h

theorem count_ofSku (m : Member) (ms : Multiset Member) :
    (ofSku m.skuId ms).count m = ms.count m := Multiset.count_filter_of_pos rfl

def Small (m : Member) : Prop := 1 ≤ m.qty.toInt ∧ m.qty.toInt < 2^31

theorem Small.fits {m : Member} (h : Small m) : m.Fits :=
  Member.fits_iff.mpr ⟨by have := h.1; omega,h.2⟩

theorem memberOf_creqOf {m : Member} (h : m.Fits) : memberOf (creqOf m) = m := by
  have hq : m.qty.toInt32.toInt64 = m.qty := h
  simp [memberOf,creqOf,hq]

theorem Small.memberOf_creqOf {m : Member} (h : Small m) : memberOf (creqOf m) = m :=
  Backend.memberOf_creqOf h.fits

theorem Small.luaQty {m : Member} (h : Small m) : m.luaQty = m.qty.toInt := h.fits.luaQty

def Command.Grouped : Command → Prop
  | .setnx _ => True
  | .zrem skuId ms => ∀ m ∈ ms, m.skuId = skuId
  | _ => False

structure Sound (x : Instance) : Prop where
  requests : ∀ h ∈ x.handlers, ∀ m ∈ h.request, Small m
  pipeline : ∀ cs ∈ x.pipeline, ∀ c ∈ cs, c.Grouped

/-- Redis answers, the process lives on and its sweeper does not run. -/
def Act.Calm : Act → Prop
  | .receive m => Small m
  | .handle _ net _ _ | .pipe net | .undo _ net _ => net = .answered
  | .sweep _ _ _ _ | .crash => False
  | _ => True

instance (a : Act) : Decidable a.Calm := by
  cases a <;> simp only [Act.Calm,Small] <;> infer_instance

structure Adds (w w' : World) (redis : Redis) (sold rejected acked : Multiset Member) : Prop where
  gates : w'.redis.gates = redis.gates
  sold : w'.sold = sold + w.sold
  rejected : w'.rejected = rejected + w.rejected
  acked : w'.acked = acked + w.acked

theorem Adds.refl {w w' : World} {redis : Redis} (hr : w'.redis.gates = redis.gates)
    (hs : w'.sold = w.sold) (hj : w'.rejected = w.rejected) (ha : w'.acked = w.acked) :
    Adds w w' redis 0 0 0 := ⟨hr,by simp [hs],by simp [hj],by simp [ha]⟩

/-- What a calm step does with the requests a process holds. -/
inductive Moves (h h' : Holding) (w w' : World) : Prop where
  | stay (held : h' = h) (adds : Adds w w' w.redis 0 0 0)
  | deduct {m : Member} {timestamp : Int} (small : Small m)
      (reply : (w.redis.run (.deduct m timestamp)).1 = some 1)
      (held : h' = single .opened m + h)
      (adds : Adds w w' (w.redis.run (.deduct m timestamp)).2 0 0 0)
  | pass {m : Member} (held : single .opened m + h' = h) (adds : Adds w w' w.redis 0 0 0)
  | sell {m : Member} {rest : Holding} (before : h = single .opened m + rest)
      (held : h' = single .selling m + rest) (adds : Adds w w' w.redis {m} 0 0)
  | reject {m : Member} {rest : Holding} (before : h = single .opened m + rest)
      (held : h' = single .undoing m + rest) (adds : Adds w w' w.redis 0 {m} 0)
  | ack {c : Command} (grouped : c.Grouped) (held : c.held + h' = h)
      (adds : Adds w w' (w.redis.run c).2 0 0 c.acks)
  | undo {m : Member} (reply : (w.redis.run (.rollback m)).1 ≠ none)
      (held : single .undoing m + h' = h)
      (adds : Adds w w' (w.redis.run (.rollback m)).2 0 0 0)
  /-- `INCRBY` fails, and the call will try again or give up. -/
  | retry {m : Member} {rest : Holding} (reply : (w.redis.run (.rollback m)).1 = none)
      (before : h = single .undoing m + rest) (held : h' = rest ∨ h' = h)
      (adds : Adds w w' (w.redis.run (.rollback m)).2 0 0 0)

section Moves
variable {x x' : Instance} {w w' : World}

theorem Moves.add {h h' : Holding} (hm : Moves h h' w w') (others : Holding) :
    Moves (h + others) (h' + others) w w' := by
  cases hm with
  | stay held adds => exact .stay (by rw [held]) adds
  | deduct small reply held adds => exact .deduct small reply (by rw [held,add_assoc]) adds
  | pass held adds => exact .pass (by rw [← held,add_assoc]) adds
  | @sell m rest before held adds =>
    have hbefore : h + others = single .opened m + (rest + others) := by rw [before,add_assoc]
    exact .sell hbefore (by rw [held,add_assoc]) adds
  | @reject m rest before held adds =>
    have hbefore : h + others = single .opened m + (rest + others) := by rw [before,add_assoc]
    exact .reject hbefore (by rw [held,add_assoc]) adds
  | ack grouped held adds => exact .ack grouped (by rw [← held,add_assoc]) adds
  | undo reply held adds => exact .undo reply (by rw [← held,add_assoc]) adds
  | @retry m rest reply before held adds =>
    have hbefore : h + others = single .undoing m + (rest + others) := by rw [before,add_assoc]
    exact .retry reply hbefore (held.imp (fun he => by rw [he]) (fun he => by rw [he])) adds

theorem Redis.deduct_quiet {r : Redis} {m : Member} {timestamp : Int}
    (h : (r.run (.deduct m timestamp)).1 ≠ some 1) :
    (r.run (.deduct m timestamp)).2.gates = r.gates := by
  rcases (r.gates m.skuId).deduct_cases m timestamp with ⟨hr,-⟩ | ⟨-,hg⟩
  · exact absurd hr h
  · simp [Redis.run,Redis.setGate,hg]

theorem Moves.rollback (r : Rollback) (now : Int) (h : Holding)
    (hx : x.held = r.held + h)
    (hx' : x'.held = ((r.step w.redis .answered now).1.elim 0 Rollback.held) + h)
    (hr : w'.redis = (r.step w.redis .answered now).2)
    (hs : w'.sold = w.sold) (hj : w'.rejected = w.rejected) (ha : w'.acked = w.acked) :
    Moves x.held x'.held w w' := by
  by_cases hlt : r.attempt < maxRetries
  · simp only [Rollback.step,if_pos hlt,Redis.call] at hx' hr
    rw [Rollback.held,if_pos hlt] at hx
    rcases hrun : w.redis.run (.rollback r.member) with ⟨reply,redis⟩
    have hadds : redis = (w.redis.run (.rollback r.member)).2 := by rw [hrun]
    cases reply with
    | none =>
      simp only [hrun] at hx' hr
      refine .retry (by rw [hrun]) hx ?_ (.refl (by rw [hr,hadds]) hs hj ha)
      by_cases hnext : r.attempt + 1 < maxRetries
      · right
        simp only [Option.elim_some,Rollback.held,if_pos hnext] at hx'
        exact hx'.trans hx.symm
      · left
        simpa only [Option.elim_some,Rollback.held,if_neg hnext,zero_add] using hx'
    | some reply =>
      simp only [hrun] at hx' hr
      refine .undo (m := r.member) (by simp [hrun]) ?_ (.refl (by rw [hr,hadds]) hs hj ha)
      rw [hx,hx',Option.elim_none,zero_add]
  · simp only [Rollback.step,if_neg hlt,Option.elim_none] at hx' hr
    rw [Rollback.held,if_neg hlt] at hx
    exact .stay (hx'.trans hx.symm) (.refl (by rw [hr]; rfl) hs hj ha)

theorem Moves.handle {h : Handler} (code : Int32) (now : Int)
    (hsmall : ∀ m ∈ h.request, Small m) :
    Moves (x.goto h).held (x.handle w h .answered code now).2.held w
      (x.handle w h .answered code now).1 := by
  cases h with
  | check m =>
    simp only [Instance.handle]
    split
    · exact .stay (held_goto_of_zero x rfl) (.refl rfl rfl rfl rfl)
    · exact .stay (by simp [held_goto,Handler.held]) (.refl rfl rfl rfl rfl)
  | deduct m =>
    have hm : Small m := hsmall m rfl
    simp only [Instance.handle,Redis.call]
    by_cases hone : (w.redis.run (.deduct m now)).1 = some 1
    · have h0 : (1 : Int) ≠ 0 := by decide
      have h1 : (1 : Int) ≠ -1 := by decide
      have h2 : (1 : Int) ≠ -2 := by decide
      simp only [hone,h0,h1,h2,if_false]
      refine .deduct hm hone ?_ (.refl rfl rfl rfl rfl)
      simp only [held_goto,Handler.held,zero_add]
      rfl
    · have hquiet := Redis.deduct_quiet hone
      have hreply : (w.redis.run (.deduct m now)).1 ∈ [none,some 0,some (-1),some (-2)] := by
        rcases (w.redis.gates m.skuId).deduct_cases m now with ⟨hr,-⟩ | ⟨hr,-⟩
        · exact absurd hr hone
        · exact hr
      simp only [List.mem_cons,List.not_mem_nil,or_false] at hreply
      rcases hreply with hr | hr | hr | hr
      all_goals
        simp only [hr]
        exact .stay (held_goto_of_zero x rfl) (.refl hquiet rfl rfl rfl)
  | register m =>
    refine .stay ?_ (.refl rfl rfl rfl rfl)
    simp only [Instance.handle,held_goto]
    rfl
  | enqueue m =>
    have hm : Small m := hsmall m rfl
    simp only [Instance.handle]
    split
    · refine .stay ((held_accept x (creqOf m)).trans ?_) (.refl rfl rfl rfl rfl)
      rw [held_goto,acceptedHeld,hm.memberOf_creqOf]
      rfl
    · refine .reject (held_goto x (.enqueue m)) ?_ ⟨rfl,by simp,by simp,by simp⟩
      rw [held_goto,Handler.held,Rollback.held_zero]
  | rollback r response =>
    refine .rollback r now x.held (by rw [held_goto]; rfl) ?_ ?_ ?_ ?_ ?_
    all_goals
      simp only [Instance.handle]
      split <;> rename_i heq
    all_goals first | rfl | simp [heq,held_goto,Handler.held]

theorem Moves.process {r : Payload} {out : Option CSeckillResult}
    (h : x.process w r out = some (w',x')) : Moves x.held x'.held w w' := by
  obtain ⟨e,he,hx⟩ := Option.map_eq_some_iff.mp h
  cases hx
  unfold Abstract.process at he
  split at he
  · rename_i hr
    obtain ⟨rest,hrest⟩ := Multiset.exists_cons_of_mem hr.1
    have hbefore : x.held = single .opened (memberOf r) +
        { x with engine := { x.engine with accepted := rest } }.held := by
      simp only [Instance.held,hrest,Multiset.map_cons,Multiset.sum_cons,acceptedHeld]
      abel
    cases he
    rw [hrest,Multiset.erase_cons_head]
    cases out with
    | none => exact .pass hbefore.symm (.refl rfl rfl rfl rfl)
    | some res =>
      obtain ⟨hid,-,-,hout⟩ := hr.2
      have hafter (ids : Finset UInt64) :
          { x with engine := ⟨rest,ids,res ::ₘ x.engine.results⟩ }.held = resultHeld res +
            { x with engine := { x.engine with accepted := rest } }.held := by
        simp only [Instance.held,Multiset.map_cons,Multiset.sum_cons]
        abel
      replace hafter := hafter (insert r.requestId x.engine.decided)
      dsimp only [Option.elim_some]
      by_cases hbench : r.requestId > benchmarkLimit
      · rw [if_pos hbench] at hout
        rw [if_pos hbench]
        refine .pass (m := memberOf r) ?_ (.refl rfl rfl rfl rfl)
        rw [hafter,hbefore,resultHeld,if_pos ⟨hout,hid.symm ▸ hbench⟩,zero_add]
      · rw [if_neg hbench] at hout
        rw [if_neg hbench]
        have hmember : (taskOf res).member = memberOf r := by
          rw [← hout.1]
          rfl
        have hheld : resultHeld res =
            single (if res.status = 1 then .selling else .undoing) (memberOf r) := by
          rw [resultHeld,if_neg (by rw [hid]; exact fun h => hbench h.2),CleanupTask.held,hmember]
          rfl
        rw [hheld] at hafter
        by_cases hs : res.status = 1
        · rw [if_pos hs] at hafter
          rw [if_pos hs]
          exact .sell hbefore hafter ⟨rfl,by simp,by simp,by simp⟩
        · rw [if_neg hs] at hafter
          rw [if_neg hs]
          exact .reject hbefore hafter ⟨rfl,by simp,by simp,by simp⟩
  · cases he

theorem held_received (res : CSeckillResult) : (received res).held = resultHeld res := by
  unfold received resultHeld
  by_cases hs : res.status = 1
  · by_cases hid : res.requestId > benchmarkLimit
    · simp only [hs,hid,and_self,if_true]
      rfl
    · simp only [hs,hid,and_false,if_true,if_false]
      rfl
  · simp only [hs,false_and,if_false]
    rfl

theorem held_poll {res : CSeckillResult} (h : x.poll res = some x') : x'.held = x.held := by
  obtain ⟨results,workers,hresults,hworkers,rfl⟩ := poll_eq h
  have hidle : ResultWorker.poll.held = 0 := rfl
  simp only [Instance.held,hresults,hworkers,Multiset.map_cons,Multiset.sum_cons,held_received,
    hidle]
  abel

theorem held_push {wk : ResultWorker} (h : x.push wk = some x') : x'.held = x.held := by
  cases push_cases h with
  | order hworkers _ =>
    simp only [Instance.held,hworkers,Multiset.map_cons,Multiset.sum_cons]
    rfl
  | @task task workers hworkers _ =>
    have hidle : ResultWorker.poll.held = 0 := rfl
    have htask : (ResultWorker.cleanup task).held = task.held := rfl
    simp only [Instance.held,hworkers,Multiset.map_cons,Multiset.sum_cons,List.map_append,
      List.sum_append,List.map_cons,List.map_nil,List.sum_cons,List.sum_nil,hidle,htask]
    abel

theorem held_receiveTask (h : x.receiveTask = some x') : x'.held = x.held := by
  obtain ⟨task,rest,-,hchan,-,rfl⟩ := receiveTask_eq h
  simp only [Instance.held,hchan,List.map_append,List.sum_append,List.map_cons,List.map_nil,
    List.sum_cons,List.sum_nil]
  abel

theorem held_zrem (skuId : Int64) (ms : List Member) :
    (Command.zrem skuId ms).held = (ms.map (single .selling)).sum := by
  change (Pi.single .selling (ms : Multiset Member) : Holding) = _
  induction ms with
  | nil => simp
  | cons m ms ih =>
    rw [List.map_cons,List.sum_cons,← ih,← Multiset.cons_coe,← Multiset.singleton_add,
      Pi.single_add]
    rfl

theorem held_pipelineOf {batch : List CleanupTask} {skus : List Int64}
    (h : skus.Perm (batchSkus batch)) : ((pipelineOf batch skus).map Command.held).sum =
      ((successes batch).map CleanupTask.held).sum := by
  have hnodup : skus.Nodup := h.nodup_iff.mpr (List.nodup_dedup _)
  have hmem : ∀ t ∈ successes batch, t.skuId ∈ skus := fun t ht =>
    h.mem_iff.mpr (List.mem_dedup.mpr (List.mem_map_of_mem ht))
  have hset : ((successes batch).map fun t => (Command.setnx t.requestId).held).sum = 0 := by
    have hz : ∀ id, (Command.setnx id).held = 0 := fun id => Pi.single_zero _
    simp [hz]
  have hheld : ∀ t ∈ successes batch, CleanupTask.held t = single .selling t.member := by
    intro t ht
    have hs := (List.mem_filter.mp ht).2
    rw [CleanupTask.held,if_pos (by simpa using hs)]
  rw [pipelineOf,List.map_append,List.sum_append,List.map_map,List.map_map]
  simp only [Function.comp_def,held_zrem,hset,zero_add,membersBySku,List.map_map]
  rw [sum_groups _ _ hnodup hmem]
  exact congrArg List.sum (List.map_congr_left fun t ht => (hheld t ht).symm)

theorem held_flushTasks {skus : List Int64} (h : x.flushTasks skus = some x') :
    x'.held = x.held := by
  obtain ⟨hpipe,-,hperm,rfl⟩ := flushTasks_eq h
  have hsplit : (x.cleanupBatch.map CleanupTask.held).sum =
      ((successes x.cleanupBatch).map CleanupTask.held).sum +
        ((failures x.cleanupBatch).map CleanupTask.held).sum := by
    rw [← List.sum_append,← List.map_append]
    refine ((List.Perm.map _ ?_).sum_eq).symm
    simpa [successes,failures] using
      List.filter_append_perm (fun t : CleanupTask => decide (t.status = 1)) x.cleanupBatch
  have hundo : ∀ t ∈ failures x.cleanupBatch,
      CleanupTask.held t = (Rollback.mk t.member 0).held := by
    intro t ht
    have hs := (List.mem_filter.mp ht).2
    rw [CleanupTask.held,if_neg (by simpa using hs),Rollback.held_zero]
  simp only [Instance.held,hpipe,hsplit,Option.getD_some,Option.getD_none,
    held_pipelineOf hperm,List.map_nil,List.sum_nil,Multiset.map_add,Multiset.sum_add,
    Multiset.map_coe,Multiset.sum_coe,List.map_map,Function.comp_def]
  rw [List.map_congr_left hundo]
  abel

theorem Moves.pipe (hsound : Sound x) (h : x.pipe w .answered = some (w',x')) :
    Moves x.held x'.held w w' := by
  cases pipe_cases h with
  | done hpipe =>
    refine .stay ?_ (.refl rfl rfl rfl rfl)
    simp [Instance.held,hpipe]
  | failed _ hnet => cases hnet
  | @sent c cs hpipe _ =>
    refine .ack (c := c) (hsound.pipeline _ hpipe c List.mem_cons_self) ?_ ⟨rfl,by simp,by simp,rfl⟩
    simp only [Instance.held,hpipe,Option.getD_some,List.map_cons,List.sum_cons]
    abel

theorem Moves.goroutine {r : Rollback} {now : Int} (h : x.undo w r .answered now = some (w',x')) :
    Moves x.held x'.held w w' := by
  obtain ⟨rest,hrest,rfl,rfl⟩ := undo_eq h
  refine .rollback r now { x with rollbacks := rest }.held ?_ ?_ rfl rfl rfl rfl
  · simp only [Instance.held,hrest,Multiset.map_cons,Multiset.sum_cons]
    abel
  · cases (r.step w.redis .answered now).1 with
    | none => simp [Instance.held]
    | some r' =>
      simp only [Instance.held,Option.elim_some,Multiset.map_cons,Multiset.sum_cons]
      abel

theorem Moves.next {a : Act} (hsound : Sound x) (hcalm : a.Calm)
    (h : x.next w a = some (w',some x')) : Moves x.held x'.held w w' := by
  cases Instance.next_cases h with
  | receive m => exact .stay (held_goto_of_zero x rfl).symm (.refl rfl rfl rfl rfl)
  | handle net code now called =>
    obtain rfl : net = .answered := hcalm
    cases called
    exact Moves.handle code now (hsound.requests _ (Multiset.mem_cons_self _ _))
  | process step => exact .process step
  | poll step => exact .stay (held_poll step) (.refl rfl rfl rfl rfl)
  | push step => exact .stay (held_push step) (.refl rfl rfl rfl rfl)
  | receiveOrder step =>
    obtain ⟨order,rest,-,-,rfl⟩ := receiveOrder_eq step
    exact .stay rfl (.refl rfl rfl rfl rfl)
  | flushOrders step =>
    obtain ⟨-,rfl,rfl⟩ := flushOrders_eq step
    exact .stay rfl (.refl rfl rfl rfl rfl)
  | receiveTask step => exact .stay (held_receiveTask step) (.refl rfl rfl rfl rfl)
  | flushTasks step => exact .stay (held_flushTasks step) (.refl rfl rfl rfl rfl)
  | @pipe net w' x' step =>
    obtain rfl : net = .answered := hcalm
    exact .pipe hsound step
  | @undo r net now w' x' step =>
    obtain rfl : net = .answered := hcalm
    exact .goroutine step
  | sweep step => cases hcalm

end Moves
end Flashsale.Backend
