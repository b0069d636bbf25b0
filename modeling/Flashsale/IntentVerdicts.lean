import Flashsale.IntentFlow
import Mathlib
set_option autoImplicit false

namespace Flashsale.CoreConsumer
open Transition
variable {σ : Type} {client : PullClient σ} {s s' : State σ}

/-- On the way to `s`, `main` was in `try_enqueue` for the intent of `msg`, which is the
message pulled after `n` others, and the queue of its route held all it can. -/
def WasFull (client : PullClient σ) (s : State σ) (n : Nat) (msg : List Char) : Prop :=
  ∃ m as intent batch, (system client).Reachable m ∧ (system client).Run m as s ∧
    m.main = .enqueuing msg intent batch ∧ m.verdicts.length = n ∧ intentOf msg = some intent ∧
      (m.workers (routeIndex intent)).queue.contents.length = kQueueCap

theorem WasFull.step {n : Nat} {msg : List Char} {a : Act} (h : WasFull client s n msg)
    (hn : (system client).next s a = some s') : WasFull client s' n msg := by
  obtain ⟨m,as,intent,batch,hm,hr,hmain,hlen,hi,hfull⟩ := h
  exact ⟨m,as ++ [a],intent,batch,hm,hr.append (.single hn),hmain,hlen,hi,hfull⟩

theorem Flow.refused {msg : List Char} {intent : OrderIntent} {batch : List (List Char)}
    {q : SpscQueue.State OrderIntent} (h : Flow s) (hm : s.main = .enqueuing msg intent batch)
    (hn : (s.workers (routeIndex intent)).queue.produce = some q) (hr : q.producer = .ret false) :
    (s.workers (routeIndex intent)).queue.contents.length = kQueueCap := by
  have hinv := (h.workers (routeIndex intent)).queue
  obtain ⟨-,hcall⟩ : s.Calling (.enqueuing msg intent batch) := hm ▸ h.calling
  rcases hinv.refused hn hr with ⟨item,t,-,hfull⟩ | ⟨items,t,hp,hfull⟩
  · exact hfull
  · have hone : items = [intent] := by simpa [hp,SpscQueue.Producer.items] using hcall
    have hlen := hinv.contents_length
    have hroom := hinv.room
    rw [hone,List.length_singleton] at hfull
    omega

structure Judged (client : PullClient σ) (s : State σ) : Prop where
  terminated : ∀ n msg, s.verdicts[n]? = some (msg,.term) →
    intentOf msg = none ∨ WasFull client s n msg
  refused : ∀ msg intent batch, s.main = .enqueuing msg intent batch →
    (s.workers (routeIndex intent)).queue.producer = .ret false →
      WasFull client s s.verdicts.length msg

theorem Judged.quiet {a : Act} (h : Judged client s) (hn : (system client).next s a = some s')
    (hv : s'.verdicts = s.verdicts) (hm : s'.main.pending = [] ∨
      ∃ batch, s'.main = .settle batch) : Judged client s' where
  terminated := by
    intro n msg hmsg
    rw [hv] at hmsg
    exact (h.terminated n msg hmsg).imp id (·.step hn)
  refused := by
    intro msg intent batch hmain
    rcases hm with hm | ⟨batch',hm⟩ <;> simp [hmain,Main.pending] at hm

theorem Judged.settle {msg : List Char} {v : Verdict} {batch : List (List Char)} {a : Act}
    (h : Judged client s) (hn : (system client).next s a = some (s.settle msg v batch))
    (hv : v = .term → intentOf msg = none ∨ WasFull client s s.verdicts.length msg) :
    Judged client (s.settle msg v batch) where
  terminated := by
    intro n m hm
    simp only [State.settle] at hm
    by_cases hlt : n < s.verdicts.length
    · rw [List.getElem?_append_left hlt] at hm
      exact (h.terminated n m hm).imp id (·.step hn)
    · obtain ⟨hlast,rfl,rfl⟩ : n - s.verdicts.length = 0 ∧ msg = m ∧ v = .term := by
        simpa [List.getElem?_append_right (Nat.le_of_not_lt hlt),List.getElem?_singleton] using hm
      obtain rfl : n = s.verdicts.length := by omega
      exact (hv rfl).imp id (·.step hn)
  refused := nofun

theorem Judged.pull (hs : (system client).Reachable s) (h : Judged client s)
    (hn : s.pull client = some s') : Judged client s' := by
  have hf := reachable_flow hs
  have hnext : (system client).next s .pull = some s' := hn
  unfold State.pull at hn
  cases hm : s.main with
  | testRunning =>
    simp only [hm,hf.running,if_true,Option.some.injEq] at hn
    subst hn
    exact h.quiet hnext rfl (.inl rfl)
  | fetch =>
    simp only [hm] at hn
    split at hn <;> cases hn
    · exact h.quiet hnext rfl (.inl rfl)
    · exact h.quiet hnext rfl (.inr ⟨_,rfl⟩)
  | settle batch =>
    cases batch with
    | nil =>
      simp only [hm,Option.some.injEq] at hn
      subst hn
      exact h.quiet hnext rfl (.inl rfl)
    | cons msg batch =>
      simp only [hm] at hn
      split at hn
      · rename_i hparse
        cases hn
        exact h.settle hnext fun _ => .inl (by simp [intentOf,hparse])
      · obtain ⟨q,hq,rfl⟩ := Option.map_eq_some_iff.mp hn
        obtain rfl := SpscQueue.State.callProducer_eq hq
        refine ⟨fun n m hm => (h.terminated n m hm).imp id (·.step hnext),?_⟩
        intro m intent batch' hmain hp
        cases hmain
        simp [State.setQueue] at hp
  | enqueuing msg intent batch =>
    simp only [hm] at hn
    split at hn
    · rename_i ok hp
      cases hn
      refine h.settle hnext fun hv => .inr (h.refused msg intent batch hm ?_)
      cases ok with
      | true => cases hv
      | false => exact hp
    · obtain ⟨q,hq,rfl⟩ := Option.map_eq_some_iff.mp hn
      refine ⟨fun n m hm => (h.terminated n m hm).imp id (·.step hnext),?_⟩
      intro m intent' batch' hmain hp
      obtain ⟨rfl,rfl,rfl⟩ : msg = m ∧ intent = intent' ∧ batch = batch' := by
        simpa [State.setQueue,hm] using hmain
      obtain ⟨hi,-⟩ : s.Calling (.enqueuing msg intent batch) := hm ▸ hf.calling
      have hfull := hf.refused hm hq (by simpa [State.setQueue] using hp)
      exact ⟨s,[.pull],intent,batch,hs,.single hnext,hm,rfl,hi,hfull⟩
  | clearRunning | join i | returned =>
    have hloop := hf.main
    simp [hm,Main.Looping] at hloop

theorem Judged.work {i : WorkerId} (hs : (system client).Reachable s) (h : Judged client s)
    (hn : (system client).next s (.work i) = some s') : Judged client s' := by
  have hf := reachable_flow hs
  obtain ⟨w,hw,rfl⟩ := Option.map_eq_some_iff.mp hn
  rw [hf.running] at hw
  obtain ⟨-,-,hprod⟩ := (hf.workers i).step hw
  refine ⟨fun n m hm => (h.terminated n m hm).imp id (·.step hn),?_⟩
  intro msg intent batch hmain hp
  refine (h.refused msg intent batch hmain ?_).step hn
  by_cases hi : routeIndex intent = i
  · subst hi
    rw [← hprod]
    simpa using hp
  · simpa [hi] using hp

theorem reachable_judged (h : (system client).Reachable s) : Judged client s := by
  obtain ⟨s₀,as,rfl,hr⟩ := h
  refine (System.Reachable.of_init rfl).invariant_run (I := Judged client) ?_ hr ⟨nofun,nofun⟩
  intro s a s' hs hj hn
  cases a with
  | pull => exact hj.pull hs hn
  | work i => exact hj.work hs hn

/-- A message is terminated only where it says no intent, or where the queue of its
route was full while `main` tried to enqueue it. -/
theorem terminated_justified (h : (system client).Reachable s) {n : Nat} {msg : List Char}
    (hm : s.verdicts[n]? = some (msg,.term)) : intentOf msg = none ∨ WasFull client s n msg :=
  (reachable_judged h).terminated n msg hm

theorem terminated_justified_x :
    intentOf "x".toList = none ∨ WasFull twoIntents twoState 1 "x".toList :=
  terminated_justified twoState_reachable (by decide +kernel)

section Progress
variable {w : Worker}

/-- The steps a worker is from the `process_order` it is heading for. -/
def Worker.stepsLeft (w : Worker) : Nat :=
  match w.pc with
  | .process _ _ | .exited => 0
  | .tryDequeue _ => 6
  | .testRunning => 7
  | .dequeuing _ =>
      match w.queue.consumer with
      | .ret (_ :: _) => 1
      | .deqStoreHead _ _ => 2
      | .deqRead _ => 3
      | .deqLoadTail _ => 4
      | .deqLoadHead => 5
      | _ => 8

def Worker.left (w : Worker) : Nat :=
  9*(w.queue.accepted.length - w.processed.length) + w.stepsLeft

theorem Worker.Ok.progress (h : w.Ok) (hleft : w.processed ≠ w.queue.accepted) :
    ∃ w', w.step true = some w' ∧ w'.left < w.left := by
  have hacc := h.queue.accepted_eq
  have hdel := h.delivered
  have hcalled := h.called
  have hlooping := h.looping
  have hlen := congrArg List.length hacc
  have hlen' := congrArg List.length hdel
  simp only [List.length_append] at hlen hlen'
  unfold Worker.step
  cases hpc : w.pc with
  | tryDequeue drain =>
    have hrest : w.queue.consumer.atRest := by simpa only [Worker.Called,hpc] using hcalled
    refine ⟨_,by simp only [SpscQueue.State.next,SpscQueue.State.callConsumer_isSome hrest,
      Option.map_some]; rfl,?_⟩
    simp [Worker.left,Worker.stepsLeft,hpc]
  | testRunning => exact ⟨_,rfl,by simp [Worker.left,Worker.stepsLeft,hpc]⟩
  | process drain intent =>
    refine ⟨_,rfl,?_⟩
    simp only [Worker.inHand,hpc,List.length_singleton] at hlen'
    simp only [Worker.left,Worker.stepsLeft,hpc,List.length_append,List.length_singleton]
    omega
  | exited => simp [hpc,Loop.Looping] at hlooping
  | dequeuing drain =>
    obtain rfl : drain = false := by simpa only [Loop.Looping,hpc] using hlooping
    simp only
    cases hc : w.queue.consumer with
    | idle => exact absurd hc (by simpa only [Worker.Called,hpc] using hcalled)
    | ret items =>
      cases items with
      | nil => exact ⟨_,rfl,by simp [Worker.left,Worker.stepsLeft,hpc,hc]⟩
      | cons intent items => exact ⟨_,rfl,by simp [Worker.left,Worker.stepsLeft,hpc,hc]⟩
    | batchLoadHead m | batchLoadTail m hd | batchCopy m hd count items =>
      have hsingle := h.single
      simp [hc,SpscQueue.Consumer.Single] at hsingle
    | deqLoadHead | deqRead hd =>
      refine ⟨_,by simp only [SpscQueue.State.next,SpscQueue.State.consume,hc,Option.map_some]; rfl,?_⟩
      simp [Worker.left,Worker.stepsLeft,hpc,hc]
    | deqStoreHead hd item =>
      refine ⟨_,by simp only [SpscQueue.State.next,SpscQueue.State.consume,hc,Option.map_some]; rfl,?_⟩
      simp [Worker.left,Worker.stepsLeft,hpc,hc,SpscQueue.State.storeHead]
    | deqLoadTail hd =>
      have hnil : w.queue.contents ≠ [] := by
        intro hnil
        refine hleft ?_
        rw [hacc,hnil,hdel]
        simp [Worker.inHand,hpc,SpscQueue.State.returned,hc]
      have hne : hd ≠ w.queue.tail := by
        intro he
        have hn : w.queue.consume = some { w.queue with consumer := .ret [] } := by
          simp [SpscQueue.State.consume,hc,he]
        rcases h.queue.nothing hn rfl with ⟨-,hempty⟩ | ⟨_,_,_,hb⟩
        · exact hnil hempty
        · simp [hc] at hb
      refine ⟨_,by simp only [SpscQueue.State.next,SpscQueue.State.consume,hc,if_neg hne,
        Option.map_some]; rfl,?_⟩
      simp [Worker.left,Worker.stepsLeft,hpc,hc]

/-- Whatever has been taken for a worker, the worker alone can process, in at most nine
steps for each intent and eight more. -/
theorem worker_catches_up (h : (system client).Reachable s) (i : WorkerId) :
    ∃ m t, m ≤ 9*((s.taken i).length - (s.workers i).processed.length) + 8 ∧
      (system client).Run s (List.replicate m (.work i)) t ∧ (t.workers i).processed = s.taken i ∧
        t.main = s.main ∧ t.verdicts = s.verdicts ∧ ∀ j ≠ i, t.workers j = s.workers j := by
  have hf := reachable_flow h
  let I (t : State σ) : Prop := Flow t ∧ (t.workers i).queue.accepted = s.taken i ∧
    t.main = s.main ∧ t.verdicts = s.verdicts ∧ ∀ j ≠ i, t.workers j = s.workers j
  let P (t : State σ) : Prop := (t.workers i).processed = (t.workers i).queue.accepted
  have hstep : ∀ t, I t → ¬P t → ∃ u, (system client).next t (.work i) = some u ∧ I u ∧
      (u.workers i).left < (t.workers i).left := by
    rintro t ⟨ht,hacc,hmain,hv,hj⟩ hP
    obtain ⟨w,hw,hlt⟩ := (ht.workers i).progress hP
    have hacc' := ((ht.workers i).step hw).2.1
    rw [← ht.running] at hw
    refine ⟨{ t with workers := Function.update t.workers i w },?_,⟨ht.work hw,?_,hmain,hv,?_⟩,?_⟩
    · exact Option.map_eq_some_iff.mpr ⟨w,hw,rfl⟩
    · simpa [hacc'] using hacc
    · intro j hne
      simpa [hne] using hj j hne
    · simpa using hlt
  have hs : I s := ⟨hf,hf.routed i,rfl,rfl,fun _ _ => rfl⟩
  obtain ⟨m,t,hm,hr,⟨-,hacc,hmain,hv,hj⟩,hP⟩ :=
    System.run_until_le (fun t : State σ => (t.workers i).left) (Act.work i) hstep hs
  refine ⟨m,t,hm.trans ?_,hr,hP.trans hacc,hmain,hv,hj⟩
  have hsteps : (s.workers i).stepsLeft ≤ 8 := by
    unfold Worker.stepsLeft
    split <;> try omega
    split <;> omega
  rw [Worker.left,hf.routed i]
  omega

theorem worker_catches_up_two : twoState.taken 3 = [⟨1,7,5,1,0⟩,⟨2,3,5,1,9⟩] ∧
    ∃ m t, m ≤ 9*((twoState.taken 3).length - (twoState.workers 3).processed.length) + 8 ∧
      (system twoIntents).Run twoState (List.replicate m (.work 3)) t ∧
        (t.workers 3).processed = twoState.taken 3 ∧ t.main = twoState.main ∧
          t.verdicts = twoState.verdicts ∧ ∀ j ≠ 3, t.workers j = twoState.workers j :=
  ⟨by decide +kernel,worker_catches_up twoState_reachable 3⟩

end Progress

section Mock
variable {m : State UInt64}

/-- The messages of the mock client, from its first on. -/
def mockMessages (n : Nat) : List (List Char) :=
  (List.range n).map fun k => (mockIntent (.ofNat k)).formatTs

theorem fetchBatch_eq (seq : UInt64) (maxMsgs : Nat) : fetchBatch seq maxMsgs =
    ((List.range maxMsgs).map fun k => (mockIntent (seq + .ofNat k)).formatTs,
      seq + .ofNat maxMsgs) := by
  induction maxMsgs generalizing seq with
  | zero => simp [fetchBatch]
  | succ maxMsgs ih =>
    have hshift : ∀ k, seq + 1 + UInt64.ofNat k = seq + UInt64.ofNat (k + 1) := fun k => by
      rw [UInt64.ofNat_add,UInt64.add_assoc,UInt64.add_comm 1]
      rfl
    simp [fetchBatch,ih,hshift,List.range_succ_eq_map,Function.comp_def]

theorem intentOf_formatTs (o : OrderIntent) : intentOf o.formatTs = some o := by
  simp [intentOf,parseIntent_formatTs]

theorem mockMessages_intents (n : Nat) :
    (mockMessages n).filterMap intentOf = (List.range n).map fun k => mockIntent (.ofNat k) := by
  simp [mockMessages,List.filterMap_map,intentOf_formatTs]

theorem mockMessages_append (n : Nat) :
    mockMessages n ++ (fetchBatch (.ofNat n) kMaxBatch).1 = mockMessages (n + kMaxBatch) := by
  simp [mockMessages,fetchBatch_eq,List.range_add,UInt64.ofNat_add]

/-- The mock client has given the messages before its sequence number, in whole batches. -/
def MockGiven (m : State UInt64) : Prop :=
  ∃ n, m.client = .ofNat (kMaxBatch*n) ∧ m.fetched = mockMessages (kMaxBatch*n)

theorem MockGiven.next {m' : State UInt64} {a : Act} (h : MockGiven m)
    (hn : (system mockPullClient).next m a = some m') : MockGiven m' := by
  have hquiet : m'.client = m.client → m'.fetched = m.fetched → MockGiven m' := fun hc hf => by
    unfold MockGiven
    rwa [hc,hf]
  cases a with
  | work i =>
    obtain ⟨w,-,rfl⟩ := Option.map_eq_some_iff.mp hn
    exact hquiet rfl rfl
  | pull =>
    replace hn : m.pull mockPullClient = some m' := hn
    unfold State.pull at hn
    cases hm : m.main with
    | fetch =>
      obtain ⟨n,hc,hf⟩ := h
      simp only [hm,mockPullClient,hc,Option.some.injEq] at hn
      subst hn
      refine ⟨n+1,?_,?_⟩
      · simp [fetchBatch_eq,Nat.mul_add,UInt64.ofNat_add]
      · rw [hf,mockMessages_append,Nat.mul_succ]
    | testRunning | clearRunning | returned =>
      simp only [hm,Option.some.injEq,reduceCtorEq] at hn
      try (subst hn; exact hquiet rfl rfl)
    | settle batch =>
      cases batch with
      | nil =>
        simp only [hm,Option.some.injEq] at hn
        subst hn
        exact hquiet rfl rfl
      | cons msg batch =>
        simp only [hm] at hn
        split at hn
        · cases hn
          exact hquiet rfl rfl
        · obtain ⟨q,-,rfl⟩ := Option.map_eq_some_iff.mp hn
          exact hquiet rfl rfl
    | enqueuing msg intent batch =>
      simp only [hm] at hn
      split at hn
      · cases hn
        exact hquiet rfl rfl
      · obtain ⟨q,-,rfl⟩ := Option.map_eq_some_iff.mp hn
        exact hquiet rfl rfl
    | join i =>
      simp only [hm] at hn
      split at hn
      · split at hn <;> cases hn
        exact hquiet rfl rfl
      · cases hn
        exact hquiet rfl rfl

theorem routeIndex_mock (seq : UInt64) : (routeIndex (mockIntent seq)).val = seq.toNat%4 := by
  have huser : (mockIntent seq).userId.toNat = seq.toNat%1024 := by
    change (seq%1024).toNat = _
    rw [UInt64.toNat_mod]
    rfl
  unfold routeIndex
  split
  · change (mockIntent seq).userId.toNat%4 = _
    omega
  · rfl

/-- The mock client's intents are never rejected for what they say: one that is terminated
met a full queue. They are dealt out to the workers in turn, each in its order. -/
theorem mock_dealt_in_turn (h : (system mockPullClient).Reachable m) :
    (∀ n msg, m.verdicts[n]? = some (msg,.term) → WasFull mockPullClient m n msg) ∧
    ∃ n, m.fetched = mockMessages (kMaxBatch*n) ∧
      ∀ i, (m.workers i).processed.Sublist
        (((List.range (kMaxBatch*n)).filter (·%4 = i.val)).map fun k => mockIntent (.ofNat k)) := by
  have hf := reachable_flow h
  obtain ⟨n,-,hgiven⟩ : MockGiven m := by
    refine h.invariant ?_ fun s a s' hs hn => hs.next hn
    rintro s rfl
    exact ⟨0,rfl,rfl⟩
  refine ⟨fun k msg hmsg => ?_,n,hgiven,fun i => ?_⟩
  · refine ((reachable_judged h).terminated k msg hmsg).resolve_left fun hnone => ?_
    have hmem : msg ∈ mockMessages (kMaxBatch*n) := by
      rw [← hgiven,hf.settled]
      exact List.mem_append_left _ (List.mem_map.mpr ⟨_,List.mem_of_getElem? hmsg,rfl⟩)
    obtain ⟨k,-,rfl⟩ := List.mem_map.mp hmem
    rw [intentOf_formatTs] at hnone
    cases hnone
  · have hsub := (hf.processed_prefix i).sublist.trans (hf.taken_sublist.filter _)
    rw [hgiven,mockMessages_intents,List.filter_map] at hsub
    have hroute : ∀ k : Nat, decide (routeIndex (mockIntent (.ofNat k)) = i) = decide (k%4 = i.val) := by
      intro k
      have hk : (UInt64.ofNat k).toNat%4 = k%4 := by
        rw [UInt64.toNat_ofNat']
        omega
      simp only [Fin.ext_iff,routeIndex_mock,hk]
    simpa only [Function.comp_def,hroute] using hsub

def mockState : State UInt64 :=
  ((system mockPullClient).exec (start mockPullClient)
    (List.replicate 8 .pull ++ List.replicate 7 (.work 0))).get (by decide +kernel)

theorem mock_dealt_in_turn_first : (mockState.workers 0).processed = [mockIntent 0] ∧
    ∃ n, mockState.fetched = mockMessages (kMaxBatch*n) ∧
      ∀ i, (mockState.workers i).processed.Sublist
        (((List.range (kMaxBatch*n)).filter (·%4 = i.val)).map fun k => mockIntent (.ofNat k)) :=
  have h : (system mockPullClient).Reachable mockState := .exec rfl (by decide +kernel)
  ⟨by decide +kernel,(mock_dealt_in_turn h).2⟩

end Mock

end Flashsale.CoreConsumer
