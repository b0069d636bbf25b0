import Flashsale.Idempotency
import Flashsale.Sources
import Mathlib.Data.Multiset.UnionInter
set_option autoImplicit false

namespace Flashsale.Engine
open Transition
variable {κ : Type}

/-- What a call of `PollResult` has of the result queue. -/
def Asked (e : State κ) (c : κ) : Call → Prop
  | .polling => True
  | .retResult res => ∃ won, e.shared.resultQueue.pc (.poller c) = .deqReturn won ∧ res = won.map (·.2)
  | _ => e.shared.resultQueue.pc (.poller c) = .idle

def takings (q : ResultQueue κ) : List (ResultCaller κ × CSeckillResult) :=
  q.takers.zip (q.tickets.map (·.2))

section Steps
variable [DecidableEq κ] {e e' : State κ} {a : Act κ} {c : κ} {q : ResultQueue κ}

theorem ResultStep.poller_pc (h : ResultStep e a q) (hs : ∀ f, a ≠ .start c f)
    (hc : ∀ now spurious, a ≠ .client c now spurious) :
    q.pc (.poller c) = e.shared.resultQueue.pc (.poller c) := by
  cases h with
  | offer pc next =>
    obtain ⟨-,rfl⟩ := MpmcQueue.State.call_eq next
    exact MpmcQueue.State.goto_pc_of_ne (by simp)
  | publish pc next => exact MpmcQueue.State.step_pc_of_ne next (by simp)
  | @ask c' q idle next =>
    obtain ⟨-,rfl⟩ := MpmcQueue.State.call_eq next
    refine MpmcQueue.State.goto_pc_of_ne ?_
    rintro ⟨⟩
    exact hs _ rfl
  | poll polling next =>
    refine MpmcQueue.State.step_pc_of_ne next ?_
    rintro ⟨⟩
    exact hc _ _ rfl

theorem State.next_poller_pc (hn : e.next a = some e') (hs : ∀ f, a ≠ .start c f)
    (hc : ∀ now spurious, a ≠ .client c now spurious) :
    e'.shared.resultQueue.pc (.poller c) = e.shared.resultQueue.pc (.poller c) := by
  rcases State.next_results hn with hq | hq
  · rw [hq]
  · exact hq.poller_pc hs hc

theorem ClientStep.asked {now : Int64} {spurious : Bool} (h : ClientStep e c now spurious e')
    (ha : Asked e c (e.calls c)) : Asked e' c (e'.calls c) := by
  cases h with
  | access pc todo next => exact ha
  | poll pc next =>
    rw [pc]
    trivial
  | polled pc ret =>
    rw [State.setCall_calls_self]
    exact ⟨_,ret,rfl⟩
  | requestTest pc | batchTest pc | warmUpTest pc | accepted pc =>
    rw [pc] at ha
    rw [State.setCall_calls_self]
    split <;> exact ha
  | @finish p pc todo =>
    rw [pc] at ha
    rw [State.setCall_calls_self]
    unfold Push.done
    split <;> exact ha
  | soldOut pc | available pc | attempt pc | full pc | count pc | reentered pc | enter pc
  | reset pc | reached pc | waiting pc | stillRunning pc | stopped pc | leave pc =>
    rw [pc] at ha
    rw [State.setCall_calls_self]
    exact ha

theorem State.start_asked {f : Api} (hs : e.start c f = some e')
    (hidle : e.shared.resultQueue.pc (.poller c) = .idle) : Asked e' c (e'.calls c) := by
  unfold State.start at hs
  split at hs
  · cases f with
    | pollResult =>
      obtain ⟨q,-,rfl⟩ := Option.map_eq_some_iff.mp hs
      rw [State.setCall_calls_self]
      trivial
    | _ =>
      cases hs
      rw [State.setCall_calls_self]
      exact hidle
  · cases hs

theorem State.next_asked (ha : Asked e c (e.calls c)) (hn : e.next a = some e') :
    Asked e' c (e'.calls c) := by
  by_cases hown : ∃ now spurious, a = .client c now spurious
  · obtain ⟨now,spurious,rfl⟩ := hown
    exact (State.client_cases hn).asked ha
  by_cases hstart : ∃ f, a = .start c f
  · obtain ⟨f,rfl⟩ := hstart
    rw [(State.start_calls hn).1] at ha
    exact State.start_asked hn ha
  have hpc := State.next_poller_pc hn (fun f hf => hstart ⟨f,hf⟩) fun now spurious h => hown ⟨now,spurious,h⟩
  rcases State.next_calls hn c with he | ⟨f,hf,-⟩ | ⟨now,spurious,h,-⟩
  · rw [he]
    cases hcall : e.calls c with
    | polling => trivial
    | _ =>
      rw [hcall] at ha
      simpa only [Asked,hpc] using ha
  · exact absurd ⟨f,hf⟩ hstart
  · exact absurd ⟨now,spurious,h⟩ hown

theorem reachable_asked (h : system.Reachable e) (c : κ) : Asked e c (e.calls c) := by
  refine h.invariant (I := fun e => ∀ c, Asked e c (e.calls c)) ?_
    (fun e a e' h hn c => State.next_asked (h c) hn) c
  rintro e ⟨_,_,_,_,rfl⟩ c
  exact rfl

end Steps

section Takings
variable {e : State κ} {q : ResultQueue κ} {c : κ} {res : CSeckillResult}

theorem takings_map_fst (h : MpmcQueue.Inv (1024*16) q) : (takings q).map Prod.fst = q.takers :=
  List.map_fst_zip (by rw [List.length_map]; exact h.order)

theorem takings_map_snd (h : MpmcQueue.Inv (1024*16) q) :
    (takings q).map Prod.snd = (q.tickets.map (·.2)).take q.takers.length := by
  have hle := h.order
  have hzip : takings q = q.takers.zip ((q.tickets.map (·.2)).take q.takers.length) := by
    rw [takings,List.zip_eq_zip_take_min]
    simp [hle]
  rw [hzip]
  refine List.map_snd_zip ?_
  rw [List.length_take,List.length_map]
  omega

theorem mem_takings {x : ResultCaller κ × CSeckillResult} : x ∈ takings q ↔
    ∃ (t : Nat) (p : ResultCaller κ), q.takers[t]? = some x.1 ∧ q.tickets[t]? = some (p,x.2) := by
  rw [List.mem_iff_getElem?]
  refine exists_congr fun t => ?_
  rw [takings,List.getElem?_zip_eq_some,List.getElem?_map,Option.map_eq_some_iff]
  constructor
  · rintro ⟨ht,⟨p,res⟩,hget,hres⟩
    cases hres
    exact ⟨p,ht,hget⟩
  · rintro ⟨p,ht,hget⟩
    exact ⟨ht,_,hget,rfl⟩

theorem mem_takings_of_returned (h : Results e) (ha : Asked e c (e.calls c))
    (hc : e.calls c = .retResult (some res)) :
    (.poller c,res) ∈ takings e.shared.resultQueue := by
  rw [hc] at ha
  obtain ⟨won,hpc,hwon⟩ := ha
  obtain ⟨⟨pos,data⟩,rfl,rfl⟩ := Option.map_eq_some_iff.mp hwon.symm
  have hok := h.inv.pcs (.poller c)
  rw [hpc] at hok
  obtain ⟨htaker,p,hget⟩ := hok
  exact mem_takings.mpr ⟨_,p,htaker,hget⟩

theorem returned_of_mem_takings (h : Results e) (ha : ∀ c, Asked e c (e.calls c))
    {x : ResultCaller κ × CSeckillResult} (hx : x ∈ takings e.shared.resultQueue) :
    ∃ c, x.1 = .poller c ∧ (e.calls c = .polling ∨ e.calls c = .retResult (some x.2)) := by
  obtain ⟨t,p,htaker,hget⟩ := mem_takings.mp hx
  obtain ⟨pos,hpos,rfl⟩ := h.takers t x.1 htaker
  have hdeq : (e.shared.resultQueue.pc x.1).dequeuing := by
    cases hpc : e.shared.resultQueue.pc x.1 <;> simp_all [MpmcQueue.Pc.dequeued,MpmcQueue.Pc.dequeuing]
  obtain ⟨c,hc⟩ := h.pollers _ hdeq
  refine ⟨c,hc,?_⟩
  rw [hc] at hpos hdeq
  have hasked := ha c
  cases hcall : e.calls c with
  | polling => exact .inl rfl
  | retResult res =>
    rw [hcall] at hasked
    obtain ⟨won,hpc,rfl⟩ := hasked
    have hok := h.inv.pcs (.poller c)
    rw [hpc] at hpos hok
    cases won with
    | none => cases hpos
    | some y =>
      obtain ⟨pos',data⟩ := y
      cases hpos
      obtain ⟨-,p',hget'⟩ := hok
      rw [hget] at hget'
      cases hget'
      exact .inr rfl
  | _ =>
    rw [hcall] at hasked
    rw [show e.shared.resultQueue.pc (.poller c) = .idle from hasked] at hdeq
    cases hdeq

/-- The calls of `PollResult` that have returned a result, each with its result. -/
structure Collected (e : State κ) (received : Multiset (κ × CSeckillResult)) : Prop where
  returned : ∀ x ∈ received, e.calls x.1 = .retResult (some x.2)
  nodup : (received.map Prod.fst).Nodup

section Collected
variable {received : Multiset (κ × CSeckillResult)}

theorem Collected.pairs_nodup (h : Collected e received) :
    (received.map fun x => (ResultCaller.poller x.1,x.2)).Nodup := by
  refine Multiset.Nodup.of_map Prod.fst ?_
  have hfst : (received.map fun x => (ResultCaller.poller x.1,x.2)).map Prod.fst =
      (received.map Prod.fst).map ResultCaller.poller := by simp
  rw [hfst]
  exact h.nodup.map fun _ _ he => ResultCaller.poller.inj he

theorem Collected.subset (h : Collected e received) (hr : Results e)
    (ha : ∀ c, Asked e c (e.calls c)) : (received.map fun x => (ResultCaller.poller x.1,x.2)) ⊆
      (takings e.shared.resultQueue : Multiset (ResultCaller κ × CSeckillResult)) := by
  intro y hy
  obtain ⟨x,hx,rfl⟩ := Multiset.mem_map.mp hy
  exact Multiset.mem_coe.mpr (mem_takings_of_returned hr (ha x.1) (h.returned x hx))

theorem Collected.le (h : Collected e received) (hr : Results e)
    (ha : ∀ c, Asked e c (e.calls c)) :
    received.map Prod.snd ≤ (e.shared.resultQueue.tickets.map (·.2) : Multiset CSeckillResult) := by
  have hle := Multiset.map_le_map (f := Prod.snd)
    ((Multiset.le_iff_subset h.pairs_nodup).mpr (h.subset hr ha))
  rw [Multiset.map_map,Multiset.map_coe,takings_map_snd hr.inv] at hle
  exact hle.trans (Multiset.coe_le.mpr (List.take_sublist _ _).subperm)

/-- When the queue is empty and no call is on its way, the calls have returned
each of its results once. -/
theorem Collected.eq (h : Collected e received) (hr : Results e)
    (ha : ∀ c, Asked e c (e.calls c))
    (hempty : e.shared.resultQueue.takers.length = e.shared.resultQueue.tickets.length)
    (hall : ∀ c, e.calls c ≠ .polling ∧
      ∀ res, e.calls c = .retResult (some res) → (c,res) ∈ received) :
    received.map Prod.snd = (e.shared.resultQueue.tickets.map (·.2) : Multiset CSeckillResult) := by
  have hnodup : (takings e.shared.resultQueue).Nodup := by
    refine List.Nodup.of_map Prod.fst ?_
    rw [takings_map_fst hr.inv]
    exact hr.takers.nodup
  have heq : (received.map fun x => (ResultCaller.poller x.1,x.2)) =
      (takings e.shared.resultQueue : Multiset (ResultCaller κ × CSeckillResult)) := by
    refine Multiset.Nodup.ext h.pairs_nodup (Multiset.coe_nodup.mpr hnodup) |>.mpr fun y => ?_
    refine ⟨fun hy => h.subset hr ha hy,fun hy => ?_⟩
    obtain ⟨c,hc,hret⟩ := returned_of_mem_takings hr ha (Multiset.mem_coe.mp hy)
    have hin := (hall c).2 _ (hret.resolve_left (hall c).1)
    exact Multiset.mem_map.mpr ⟨_,hin,by rw [← hc]⟩
  have hsnd := congrArg (Multiset.map Prod.snd) heq
  rw [Multiset.map_map,Multiset.map_coe,takings_map_snd hr.inv,hempty] at hsnd
  rw [List.take_of_length_le (by simp)] at hsnd
  exact hsnd

end Collected
end Takings
end Flashsale.Engine
