import Flashsale.EngineIdle
set_option autoImplicit false

namespace Flashsale.Engine
open Transition Transducer
variable {κ : Type}

instance (r : Payload) : Decidable r.Control := inferInstanceAs (Decidable (_ ∨ _))

/-- The requests other than those of the warm-up and of the barrier. -/
def ordinary (rs : List Payload) : List Payload := rs.filter fun r => ¬ Payload.Control r

def onceOf (x : Caller κ × Request) : Option (κ × Payload) :=
  match x.1 with
  | .client .once c _ => some (c,x.2.payload)
  | _ => none

/-- The requests that the clients' calls got accepted into a shard. -/
def Shard.onces (s : Shard κ) : List (κ × Payload) := s.queue.tickets.filterMap onceOf

/-- Every ordinary request is decided on the stock. -/
def Undropped (rs : List Payload) : Prop :=
  ∀ l r, l ++ [r] <+: rs → ¬ Payload.Control r →
    Payload.requestId r ≤ benchmarkLimit ∧
      Payload.requestId r ∉ (after Ledger.process startLedger l).seen

section Verdicts
variable {vs : List Verdict} {res : List CSeckillResult} {rs : List Payload} {r : Payload}

theorem ordinary_append (rs rs' : List Payload) :
    ordinary (rs ++ rs') = ordinary rs ++ ordinary rs' := List.filter_append ..

theorem ordinary_control (h : r.Control) : ordinary [r] = [] := by simp [ordinary,h]

theorem ordinary_of_not (h : ¬ r.Control) : ordinary [r] = [r] := by simp [ordinary,h]

theorem rejected_payloads (h : List.Forall₂ Verdict.Of vs res) :
    (res.filter (·.status ≠ 1)).map (·.payload) =
      ((vs.filterMap Verdict.decision).filter (·.2 ≠ 1)).map Prod.fst := by
  induction h with
  | nil => rfl
  | @cons v x vs res hv _ ih =>
    cases v with
    | benchmark reqId =>
      have hone : x.status = 1 := hv.2
      rw [List.filter_cons_of_neg (by simp [hone]),ih]
      rfl
    | decided r status =>
      obtain ⟨hr,hs⟩ := hv
      have hcons : (Verdict.decided r status :: vs).filterMap Verdict.decision =
          (r,status) :: vs.filterMap Verdict.decision := rfl
      rw [hcons]
      by_cases hone : status = 1
      · rw [List.filter_cons_of_neg (by simp [hs,hone]),List.filter_cons_of_neg (by simp [hone]),ih]
      · rw [List.filter_cons_of_pos (by simp [hs,hone]),List.filter_cons_of_pos (by simp [hone]),
          List.map_cons,List.map_cons,ih,hr]

theorem decisions_sublist (rs : List Payload) :
    List.Sublist (((verdicts rs).filterMap Verdict.decision).map Prod.fst) (ordinary rs) := by
  induction rs using List.reverseRecOn with
  | nil => exact .slnil
  | append_singleton rs r ih =>
    rw [verdicts_concat,List.filterMap_append,List.map_append,ordinary_append]
    refine ih.append ?_
    by_cases hctl : r.Control
    · simp [Ledger.process_control hctl]
    generalize after Ledger.process startLedger rs = l
    rw [ordinary_of_not hctl]
    by_cases hlim : r.requestId > benchmarkLimit
    · simp [Ledger.process_benchmark hctl hlim,Verdict.decision]
    by_cases hseen : r.requestId ∈ l.seen
    · unfold Ledger.process
      repeat' split
      all_goals simp_all [Verdict.decision]
    · simp [Ledger.process_fresh hctl hlim hseen,Verdict.decision]

theorem Undropped.of_concat (h : Undropped (rs ++ [r])) : Undropped rs :=
  fun l r' hl => h l r' (hl.trans (List.prefix_append _ _))

theorem Undropped.verdicts (h : Undropped rs) :
    List.Forall₂ (fun v r => ∃ status, v = .decided r status) (verdicts rs) (ordinary rs) := by
  induction rs using List.reverseRecOn with
  | nil => exact .nil
  | append_singleton rs r ih =>
    rw [verdicts_concat,ordinary_append]
    refine List.rel_append (ih h.of_concat) ?_
    by_cases hctl : r.Control
    · simp [Ledger.process_control hctl,ordinary_control hctl]
    obtain ⟨hlim,hseen⟩ := h rs r (List.prefix_refl _) hctl
    rw [Ledger.process_fresh hctl (UInt64.not_lt.mpr hlim) hseen,ordinary_of_not hctl]
    simp

theorem payloads_of_verdicts (h : List.Forall₂ Verdict.Of vs res)
    (hv : List.Forall₂ (fun v r => ∃ status, v = .decided r status) vs rs) :
    res.map (·.payload) = rs := by
  induction hv generalizing res with
  | nil =>
    cases h
    rfl
  | cons hd _ ih =>
    obtain ⟨status,rfl⟩ := hd
    cases h with
    | cons ho h => rw [List.map_cons,ih h,ho.1]

end Verdicts

section Shards
variable {e : State κ} {i : ShardId} {ok : Payload → Prop}

theorem onces_of_admitted {l : List (Caller κ × Request)}
    (h : ∀ x ∈ l, Admitted ok i x.1 x.2.payload) :
    List.Sublist (ordinary (payloads (l.map (·.2)))) ((l.filterMap onceOf).map Prod.snd) ∧
      ((∀ r, ok r → ¬ r.Control) →
        ordinary (payloads (l.map (·.2))) = (l.filterMap onceOf).map Prod.snd) := by
  induction l with
  | nil => exact ⟨.slnil,fun _ => rfl⟩
  | cons x l ih =>
    obtain ⟨hsub,heq⟩ := ih fun y hy => h y (List.mem_cons_of_mem _ hy)
    have hx := h x List.mem_cons_self
    have hcons : ordinary (payloads ((x :: l).map (·.2))) =
        ordinary [x.2.payload] ++ ordinary (payloads (l.map (·.2))) := ordinary_append [x.2.payload] _
    have hcontrol : Payload.Control x.2.payload → onceOf x = none →
        List.Sublist (ordinary (payloads ((x :: l).map (·.2))))
            (((x :: l).filterMap onceOf).map Prod.snd) ∧
          ((∀ r, ok r → ¬ r.Control) → ordinary (payloads ((x :: l).map (·.2))) =
            ((x :: l).filterMap onceOf).map Prod.snd) := by
      intro hctl hnone
      rw [hcons,ordinary_control hctl,List.filterMap_cons_none hnone]
      exact ⟨hsub,heq⟩
    obtain ⟨c,req⟩ := x
    cases c with
    | dispatcher k => exact hx.elim
    | client purpose c k =>
      cases purpose with
      | warmUp => exact hcontrol (.inl hx) rfl
      | barrier => exact hcontrol (.inr hx) rfl
      | once =>
        have honce : ((Caller.client .once c k,req) :: l).filterMap onceOf =
            (c,req.payload) :: l.filterMap onceOf := rfl
        rw [hcons,honce]
        refine ⟨?_,fun hok => ?_⟩
        · by_cases hctl : Payload.Control req.payload
          · rw [ordinary_control hctl]
            exact hsub.cons _
          · rw [ordinary_of_not hctl]
            exact hsub.cons_cons _
        · rw [ordinary_of_not (hok _ hx.2),heq hok]
          rfl

theorem Clients.admitted_tickets (h : Clients ok e) (hf : Fifo (e.shards i)) :
    ∀ x ∈ (e.shards i).queue.tickets, Admitted ok i x.1 x.2.payload := by
  rintro ⟨c,req⟩ hx
  obtain ⟨t,ht⟩ := List.mem_iff_getElem?.mp hx
  exact hf.ingress.tickets_carry (h.queues i) ht

theorem Clients.onces_sublist (h : Clients ok e) (hf : Fifo (e.shards i)) :
    List.Sublist (ordinary (payloads (e.shards i).accepted)) ((e.shards i).onces.map Prod.snd) :=
  (onces_of_admitted (h.admitted_tickets hf)).1

theorem Clients.onces_eq (h : Clients ok e) (hok : ∀ r, ok r → ¬ r.Control) (hf : Fifo (e.shards i)) :
    ordinary (payloads (e.shards i).accepted) = (e.shards i).onces.map Prod.snd :=
  (onces_of_admitted (h.admitted_tickets hf)).2 hok

end Shards

section Totals
variable {e : State κ} {q : ResultQueue κ} {ok : Payload → Prop} {i : ShardId} {r : Payload}

def State.onces (e : State κ) : Multiset (κ × Payload) :=
  ∑ i, ((e.shards i).onces : Multiset (κ × Payload))

def State.results (e : State κ) : Multiset CSeckillResult := e.shared.resultQueue.tickets.map (·.2)

def unsold (rs : Multiset CSeckillResult) : Multiset Payload :=
  (rs.filter (·.status ≠ 1)).map (·.payload)

theorem unsold_sum {ι : Type} (s : Finset ι) (f : ι → Multiset CSeckillResult) :
    unsold (∑ i ∈ s, f i) = ∑ i ∈ s, unsold (f i) := by
  have hadd : ∀ a b, unsold (a + b) = unsold a + unsold b := fun a b => by
    rw [unsold,Multiset.filter_add,Multiset.map_add]
    rfl
  exact map_sum (⟨⟨unsold,rfl⟩,hadd⟩ : Multiset CSeckillResult →+ Multiset Payload) f s

theorem map_total {ι α β : Type} (g : α → β) (s : Finset ι) (f : ι → Multiset α) :
    (∑ i ∈ s, f i).map g = ∑ i ∈ s, (f i).map g := by
  simpa only [Multiset.coe_mapAddMonoidHom] using map_sum (Multiset.mapAddMonoidHom g) f s

theorem onces_map_snd (e : State κ) :
    e.onces.map Prod.snd = ∑ i, (((e.shards i).onces.map Prod.snd : List Payload) : Multiset Payload) :=
  map_total Prod.snd _ _

theorem mem_onces {c : κ} : (c,r) ∈ (e.shards i).onces ↔
    ∃ k req, (.client .once c k,req) ∈ (e.shards i).queue.tickets ∧ req.payload = r := by
  rw [Shard.onces,List.mem_filterMap]
  constructor
  · rintro ⟨⟨c',req⟩,hx,ho⟩
    cases c' with
    | dispatcher k => cases ho
    | client purpose c' k =>
      cases purpose with
      | once =>
        cases ho
        exact ⟨k,req,hx,rfl⟩
      | warmUp | barrier => cases ho
  · rintro ⟨k,req,hx,rfl⟩
    exact ⟨_,hx,rfl⟩

theorem State.mem_onces {c : κ} : (c,r) ∈ e.onces ↔ ∃ i, (c,r) ∈ (e.shards i).onces := by
  simp [State.onces]

theorem results_posted (h : ∀ x ∈ q.tickets, ∃ i k, x.1 = .worker i k) :
    (q.tickets.map (·.2) : Multiset CSeckillResult) =
      ∑ i, (postedBy q i : Multiset CSeckillResult) := by
  ext res
  rw [Multiset.count_sum',Multiset.coe_count,List.count,List.countP_map]
  simp only [Multiset.coe_count]
  exact countP_postedBy h (· == res)

theorem Results.unsold_le (h : Results e) (hf : ∀ i, Fifo (e.shards i)) (hc : Clients ok e)
    (hp : ∀ x ∈ e.shared.resultQueue.tickets, ∃ i k, x.1 = .worker i k) :
    unsold e.results ≤ e.onces.map Prod.snd := by
  rw [State.results,results_posted hp,unsold_sum,onces_map_snd]
  refine Finset.sum_le_sum fun i _ => Multiset.coe_le.mpr ?_
  have hposted : List.Sublist (((postedBy e.shared.resultQueue i).filter (·.status ≠ 1)).map (·.payload))
      (((verdicts (payloads (e.shards i).worker.processed)).filterMap Verdict.decision).map Prod.fst) := by
    have hall := rejected_payloads (h.posting i).posted
    rw [List.filter_append,List.map_append] at hall
    exact (List.sublist_append_left _ _).trans
      (hall ▸ List.filter_sublist.map Prod.fst)
  have hdecided := decisions_sublist (payloads (e.shards i).worker.processed)
  have haccepted : List.Sublist (ordinary (payloads (e.shards i).worker.processed))
      (ordinary (payloads (e.shards i).accepted)) :=
    (Fifo.processed_prefix (hf i)).sublist.filter _
  exact (hposted.trans (hdecided.trans (haccepted.trans (hc.onces_sublist (hf i))))).subperm

/-- Where every shard has processed what it accepted and dropped nothing, each
request the clients brought has its result. -/
theorem Results.payloads_eq (h : Results e) (hf : ∀ i, Fifo (e.shards i)) (hc : Clients ok e)
    (hok : ∀ r, ok r → ¬ r.Control)
    (hp : ∀ x ∈ e.shared.resultQueue.tickets, ∃ i k, x.1 = .worker i k)
    (hd : ∀ i, (e.shards i).Done) (hu : ∀ i, Undropped (payloads (e.shards i).worker.processed)) :
    e.results.map (·.payload) = e.onces.map Prod.snd := by
  rw [State.results,results_posted hp,onces_map_snd]
  refine (map_total _ _ _).trans (Finset.sum_congr rfl fun i _ => ?_)
  have hnone : (e.shards i).worker.unposted e.shared.resultQueue i = none := by
    have hrest := (hd i).resting
    unfold Worker.unposted
    cases hpc : (e.shards i).worker.pc <;> simp [hpc,Loop.resting] at hrest ⊢
  have hposted := (h.posting i).posted
  rw [hnone,Option.toList_none,List.append_nil] at hposted
  have hall : payloads (e.shards i).worker.processed = payloads (e.shards i).accepted := by
    refine (Fifo.processed_prefix (hf i)).eq_of_length ?_
    rw [payloads_length,payloads_length,(hd i).processed,Shard.accepted,List.length_map]
  have heq := payloads_of_verdicts hposted (hu i).verdicts
  rw [hall,hc.onces_eq hok (hf i)] at heq
  exact congrArg _ heq

end Totals
end Flashsale.Engine
