import Flashsale.SoldOut
import Flashsale.Sources
import Mathlib
set_option autoImplicit false

namespace Flashsale.Engine
open Transition Transducer
variable {κ : Type}

section Inserted

/-- Two ledgers before the rest of their inputs, where those inserted find nothing left. -/
structure Inserted (xs : List (Bool × Payload)) (s t : Ledger) : Prop where
  inventory : s.inventory = t.inventory
  distinct : (own xs).Pairwise fun r r' : Payload => ¬ r.Control → r.requestId ≠ r'.requestId
  fresh : ∀ r ∈ own xs, ¬ Payload.Control r →
    Payload.requestId r ∉ s.seen ∧ Payload.requestId r ∉ t.seen
  gone : ∀ l r xs', xs = l ++ (false,r) :: xs' → Sellable r ∧
    (after Ledger.process t (own l)).inventory r.1 = some 0 ∧
    ∀ r' ∈ own xs, Payload.requestId r' ≠ Payload.requestId r

variable {xs : List (Bool × Payload)} {s t : Ledger} {r : Payload}

theorem own_cons_true : own ((true,r) :: xs) = r :: own xs := by simp [own]

theorem own_cons_false : own ((false,r) :: xs) = own xs := by simp [own]

theorem Sellable.not_control (h : Sellable r) : ¬ r.Control := by
  rintro (hid | hid)
  · have : r.2.2.2 = 0 := hid
    rw [Sellable,this] at h
    exact absurd h.2.1 (by decide)
  · have : r.2.2.2 = barrierId := hid
    rw [Sellable,this] at h
    exact absurd h.2.2 (by decide)

theorem Inserted.step_own (h : Inserted ((true,r) :: xs) s t) :
    (s.process r).2 = (t.process r).2 ∧ Inserted xs (s.process r).1 (t.process r).1 := by
  obtain ⟨hinv,hdist,hfresh,hgone⟩ := h
  rw [own_cons_true] at hdist hfresh
  obtain ⟨hhead,htail⟩ := List.pairwise_cons.mp hdist
  have hgone' : ∀ l r' xs', xs = l ++ (false,r') :: xs' → Sellable r' ∧
      (after Ledger.process (t.process r).1 (own l)).inventory r'.1 = some 0 ∧
      ∀ r'' ∈ own xs, Payload.requestId r'' ≠ Payload.requestId r' := by
    intro l r' xs' hx
    obtain ⟨hsell,hzero,hne⟩ := hgone ((true,r) :: l) r' xs' (by rw [hx]; rfl)
    rw [own_cons_true] at hzero hne
    exact ⟨hsell,hzero,fun r'' hr'' => hne r'' (by simp [hr''])⟩
  have hpass : (s.process r).1 = s → (t.process r).1 = t →
      Inserted xs (s.process r).1 (t.process r).1 := by
    intro hs ht
    rw [hs]
    exact ⟨by rw [ht]; exact hinv,htail,fun r' hr' hctl => by
      rw [ht]; exact hfresh r' (by simp [hr']) hctl,hgone'⟩
  by_cases hctl : r.Control
  · rw [Ledger.process_control hctl,Ledger.process_control hctl] at hpass ⊢
    exact ⟨rfl,hpass rfl rfl⟩
  by_cases hlim : r.requestId > benchmarkLimit
  · rw [Ledger.process_benchmark hctl hlim,Ledger.process_benchmark hctl hlim] at hpass ⊢
    exact ⟨rfl,hpass rfl rfl⟩
  obtain ⟨hs,ht⟩ := hfresh r (by simp) hctl
  have hout : (s.process r).2 = (t.process r).2 ∧
      (s.process r).1.inventory = (t.process r).1.inventory := by
    rw [Ledger.process_fresh hctl hlim hs,Ledger.process_fresh hctl hlim ht,hinv]
    exact ⟨rfl,rfl⟩
  refine ⟨hout.1,hout.2,htail,?_,hgone'⟩
  intro r' hr' hctl'
  have hne : Payload.requestId r' ≠ r.requestId := (hhead r' hr' hctl).symm
  obtain ⟨hs',ht'⟩ := hfresh r' (by simp [hr']) hctl'
  exact ⟨fun hm => (Ledger.process_seen hm).elim hne hs',
    fun hm => (Ledger.process_seen hm).elim hne ht'⟩

theorem Inserted.step_inserted (h : Inserted ((false,r) :: xs) s t) : Inserted xs (s.process r).1 t := by
  obtain ⟨hinv,hdist,hfresh,hgone⟩ := h
  obtain ⟨hsell,hzero,hne⟩ := hgone [] r xs rfl
  rw [own_cons_false] at hdist hfresh hne
  have hkeeps : (s.process r).1.inventory = s.inventory := by
    unfold Ledger.process
    repeat' split
    all_goals first
      | rfl
      | exact congrArg Prod.fst (deductFrom_of_zero (hinv ▸ hzero) hsell.1)
  refine ⟨hkeeps.trans hinv,hdist,fun r' hr' hctl => ?_,fun l r' xs' hx => ?_⟩
  · obtain ⟨hs',ht'⟩ := hfresh r' hr' hctl
    exact ⟨fun hm => (Ledger.process_seen hm).elim (hne r' hr') hs',ht'⟩
  · have hrest := hgone ((false,r) :: l) r' xs' (by rw [hx]; rfl)
    rwa [own_cons_false,own_cons_false] at hrest

end Inserted

def Gone (c : κ) (e : State κ) : Prop :=
  (∃ n, e.calls c = .ret n) ∧ ∀ i k, (e.shards i).queue.pc (.client .once c k) = .idle

section Refused
variable {e e' : State κ} {r : Payload} {n : Nat}

/-- What is known of a refused request, in every later state. -/
structure Refused (e : State κ) (r : Payload) (n : Nat) : Prop where
  sellable : Sellable r
  flag : e.shared.soldOut r.1 = some true
  gone : (after Ledger.process startLedger
    ((payloads (e.owner r.1).processed).take n)).inventory r.1 = some 0
  fresh : ∀ i, ∀ r' ∈ payloads (e.shards i).accepted, Payload.requestId r' ≠ r.requestId

/-- A request that was refused is answered with 2 whenever it is processed, and takes nothing. -/
theorem Refused.process {req : Request} (h : Refused e req.payload n)
    (hflags : Flags e) (hrec : Recorded (e.owner req.skuId))
    (hpre : payloads (e.owner req.skuId).processed <+:
      payloads (e.shards (shardIdx req.skuId)).accepted)
    (sh : Shared κ) (items : List Request) (count : Nat) (uninit : CSeckillResult) :
    ((e.owner req.skuId).process sh req items count uninit).2.inventory =
        (e.owner req.skuId).inventory ∧
      ((e.owner req.skuId).process sh req items count uninit).2.pc =
        .flag req (req.decision 2) items count := by
  have hzero : (e.owner req.skuId).inventory req.skuId = some 0 := hflags.right _ h.flag
  have hfresh : req.requestId ∉ (e.owner req.skuId).seenRequests := by
    intro hm
    change req.requestId ∈ (e.owner req.skuId).ledger.seen at hm
    rw [hrec.ledger] at hm
    rcases after_seen hm with hm | ⟨r',hr',hid⟩
    · cases hm
    · exact h.fresh _ r' (hpre.subset hr') hid.symm
  have hdeduct : deductFrom (e.owner req.skuId).inventory req.payload =
      ((e.owner req.skuId).inventory,2) := deductFrom_of_zero hzero h.sellable.1
  obtain ⟨hstatus,hinv⟩ := (e.owner req.skuId).deduct_payload req
  rw [hdeduct] at hstatus hinv
  generalize hp : (e.owner req.skuId).process sh req items count uninit = p
  obtain ⟨sh',w'⟩ := p
  have hctl := h.sellable.not_control
  cases Worker.process_step hp with
  | warmUp id => exact absurd (.inl id) hctl
  | barrier id => exact absurd (.inr id) hctl
  | benchmark id limit =>
    exact absurd (UInt64.lt_of_lt_of_le limit h.sellable.2.2) (UInt64.lt_irrefl _)
  | duplicate id limit seen => exact absurd seen hfresh
  | decided id limit fresh =>
    refine ⟨hinv,?_⟩
    change Loop.flag req (req.decision ((e.owner req.skuId).deduct req).1) items count = _
    rw [hstatus]

variable [DecidableEq κ] {as : List (Act κ)}

/-- In the trace `as` from `e₀`, `EnqueueRequest` returns 2 for the request `r`,
when the worker of its SKU has been handed `n` requests. -/
def RefusedAt (e₀ : State κ) (as : List (Act κ)) (r : Payload) (n : Nat) : Prop :=
  ∃ as₁ as₂ e₁ e₂ c now spurious creq, as = as₁ ++ .client c now spurious :: as₂ ∧
    system.Run e₀ as₁ e₁ ∧ e₁.calls c = .testFlag creq ∧
    e₁.next (.client c now spurious) = some e₂ ∧ e₂.calls c = .ret 2 ∧ creq.payload = r ∧
    (e₁.owner creq.skuId).processed.length = n

theorem Gone.next {a : Act κ} {c : κ} (h : Gone c e) (hn : e.next a = some e') : Gone c e' := by
  obtain ⟨⟨n,hret⟩,hidle⟩ := h
  refine ⟨⟨n,?_⟩,fun i k => ?_⟩
  · rcases State.next_calls hn c with he | ⟨f,-,hc,-⟩ | ⟨now,spurious,rfl,-⟩
    · exact he.trans hret
    · rw [hret] at hc
      cases hc
    · simp [State.next,State.client,hret] at hn
  · rcases State.next_shard hn i with hs | hs
    · rw [hs]; exact hidle i k
    · rw [hs.client_pc (by simp [hret])]
      exact hidle i k

theorem RefusedAt.refused {sold enq deq barrier : UInt64}
    (hr : system.Run (initEngine sold enq deq barrier) as e)
    (ha : ∀ a ∈ as, ∀ req ∈ a.requests, Sellable req.payload)
    (hids : ((as.flatMap Act.requests).map (·.requestId)).Nodup)
    (h : RefusedAt (initEngine sold enq deq barrier) as r n) : Refused e r n := by
  obtain ⟨as₁,as₂,e₁,e₂,c,now,spurious,creq,hsplit,hr₁,hpc,hn,hret,rfl,rfl⟩ := h
  have hsub : as₁ ⊆ as := fun a ha => by rw [hsplit]; simp [ha]
  have hclients₁ := run_clients hr₁ (along_admits fun a ha' => ha a (hsub ha'))
  have hsourced₁ := run_sourced hr hr₁ hsub
  have hsell : Sellable creq.payload := by
    have hok := hclients₁.calls c
    rwa [hpc] at hok
  have hB : brought as c = [creq.payload] := by
    have hfrom := hsourced₁.calls c
    rwa [hpc] at hfrom
  simp only [State.next,State.client,hpc,Option.some.injEq] at hn
  have hflag : e₁.shared.soldOut creq.skuId = some true := by
    by_contra hne
    rw [if_neg hne] at hn
    rw [← hn,State.setCall_calls_self] at hret
    cases hret
  have hrest : system.Run e₁ (.client c now spurious :: as₂) e := (hsplit ▸ hr).rest hr₁
  have hgone : Gone c e := by
    cases hrest with
    | cons hn' hr₂ =>
      refine hr₂.invariant (I := Gone c) (fun _ _ _ h hn => h.next hn) ?_
      simp only [system,State.next,State.client,hpc,if_pos hflag,Option.some.injEq] at hn'
      subst hn'
      exact ⟨⟨2,State.setCall_calls_self _ _ _⟩,hsourced₁.untried c (by simp [hpc,Call.Untried])⟩
  refine ⟨hsell,run_set hrest hflag,?_,fun i r' hr' hid => ?_⟩
  · have hzero := (run_flags hr₁ (along_admits fun a ha' => ha a (hsub ha'))).right _ hflag
    have hrec : (e₁.owner creq.skuId).ledger =
        after Ledger.process startLedger (payloads (e₁.owner creq.skuId).processed) :=
      (reachable_recorded ⟨_,as₁,⟨_,_,_,_,rfl⟩,hr₁⟩ _).ledger
    have hpre : payloads (e₁.owner creq.skuId).processed <+: payloads (e.owner creq.skuId).processed :=
      (run_processed hrest _).map _
    have htake := List.prefix_iff_eq_take.mp hpre
    rw [payloads_length] at htake
    change (after Ledger.process startLedger
      ((payloads (e.owner creq.skuId).processed).take _)).inventory creq.skuId = some 0
    rw [← htake,← hrec]
    exact hzero
  · obtain ⟨req,hreq,rfl⟩ := List.mem_map.mp hr'
    obtain ⟨x,hx,rfl⟩ := List.mem_map.mp hreq
    have hreach : system.Reachable e := ⟨_,as,⟨_,_,_,_,rfl⟩,hr⟩
    have hf := reachable_fifo hreach i
    have hctl : ¬ Payload.Control x.2.payload := by
      rw [Payload.Control,hid]
      exact hsell.not_control
    obtain ⟨c',k,hxc,hB'⟩ := (run_sourced hr hr (List.Subset.refl _)).of_ticket hf
      (reachable_clients hreach) hx hctl
    obtain ⟨rfl,-⟩ := distinct_of_nodup hr (initEngine_clients _ _ _ _) hids c' c k 0 _ _ hB'
      (by rw [hB]; rfl) hid
    have hin := List.mem_map.mpr ⟨x,hx,hxc⟩
    rw [hf.ingress.mem_tickets_iff,hgone.2 i k] at hin
    simp [MpmcQueue.Pc.enqueued] at hin

/-- The fast path changes no outcome: outside a store the flag of a SKU says that
its stock is gone, for good; what is refused would have been answered with 2; and
inserted into the inputs of its worker it changes nothing for the others. -/
theorem fast_path {sold enq deq barrier : UInt64}
    (hr : system.Run (initEngine sold enq deq barrier) as e)
    (ha : ∀ a ∈ as, ∀ req ∈ a.requests, Sellable req.payload)
    (hids : ((as.flatMap Act.requests).map (·.requestId)).Nodup) :
    (∀ sku, (sessionFlags sku).isSome → ¬ (e.owner sku).storing sku →
      (e.shared.soldOut sku = some true ↔ (e.owner sku).inventory sku = some 0)) ∧
    (∀ more e' sku, system.Run e more e' → e.shared.soldOut sku = some true →
      e'.shared.soldOut sku = some true) ∧
    (∀ req n, RefusedAt (initEngine sold enq deq barrier) as (Request.payload req) n →
      ∀ (sh : Shared κ) items count uninit,
        ((e.owner req.skuId).process sh req items count uninit).2.inventory =
            (e.owner req.skuId).inventory ∧
          ((e.owner req.skuId).process sh req items count uninit).2.pc =
            .flag req (req.decision 2) items count) ∧
    ∀ i xs, own xs = payloads (e.shards i).worker.processed →
      (∀ l r xs', xs = l ++ (false,r) :: xs' → shardIdx r.1 = i ∧
        ∃ n ≤ (own l).length, RefusedAt (initEngine sold enq deq barrier) as r n) →
      (after Ledger.process startLedger (xs.map (·.2))).inventory = (e.shards i).worker.inventory ∧
        ((xs.zip (outputs Ledger.process startLedger (xs.map (·.2)))).filter (·.1.1)).map (·.2) =
          outputs Ledger.process startLedger (payloads (e.shards i).worker.processed) := by
  have hreach : system.Reachable e := ⟨_,as,⟨_,_,_,_,rfl⟩,hr⟩
  have hflags := run_flags hr (along_admits ha)
  have hclients := run_clients hr (along_admits ha)
  have hdistinct := distinct_of_nodup hr (initEngine_clients _ _ _ _) hids
  have hsourced := run_sourced hr hr (List.Subset.refl _)
  refine ⟨fun sku hl hst => ⟨hflags.right sku,fun hz => ?_⟩,fun more e' sku hm => run_set hm,
    fun req n href sh items count uninit => ?_,fun i xs hown hins => ?_⟩
  · exact (hflags.complete sku hl hz).resolve_right hst
  · have hf := reachable_fifo hreach (shardIdx req.skuId)
    exact (href.refused hr ha hids).process hflags (reachable_recorded hreach _)
      hf.processed_prefix sh items count uninit
  · have hf := reachable_fifo hreach i
    have hdist := (hsourced.accepted_distinct hdistinct hf hclients).sublist
      hf.processed_prefix.sublist
    have hin : Inserted xs startLedger startLedger := by
      refine ⟨rfl,by rw [hown]; exact hdist,fun _ _ _ => ⟨by simp [startLedger],by simp [startLedger]⟩,
        fun l r xs' hx => ?_⟩
      obtain ⟨rfl,n,hn,href⟩ := hins l r xs' hx
      have hrefused := href.refused hr ha hids
      refine ⟨hrefused.sellable,?_,fun r' hr' => ?_⟩
      · have hpre : own l <+: payloads (e.owner r.1).processed := by
          rw [State.owner,← hown,hx]
          simp [own]
        have htake : (payloads (e.owner r.1).processed).take n <+: own l :=
          List.prefix_of_prefix_length_le (List.take_prefix _ _) hpre
            (by rw [List.length_take]; omega)
        obtain ⟨rest,hrest⟩ := htake
        rw [← hrest,after_append]
        refine after_keeps hrefused.gone fun r' hr' hzero hlim => ?_
        have hmem : r' ∈ payloads (e.shards (shardIdx r.1)).accepted :=
          hf.processed_prefix.subset (hpre.subset (by rw [← hrest]; simp [hr']))
        obtain ⟨c,hadm⟩ := hclients.admitted hf hmem
        exact (hadm.sellable hzero hlim).2.1
      · rw [hown] at hr'
        exact hrefused.fresh _ r' (hf.processed_prefix.subset hr')
    obtain ⟨hend,hout⟩ := insert_related (R := Inserted) Inserted.step_own Inserted.step_inserted hin
    refine ⟨?_,hout.trans (by rw [hown])⟩
    rw [hend.inventory,hown,← (reachable_recorded hreach i).ledger]
    rfl

end Refused

def soldOutRun : List (Act Nat) :=
  .start 0 (.enqueueRequest { saleRequest 5 with skuId := 888, qty := 5 }) ::
    List.replicate 11 (.client 0 1 false) ++ List.replicate 12 (.dispatch 0 3 4 false) ++
    List.replicate 24 (.work 0 default)

def refusedRun : List (Act Nat) :=
  [.start 1 (.enqueueRequest { saleRequest 6 with skuId := 888 }),.client 1 2 false]

def soldOutState : State Nat :=
  (system.exec (initEngine 0 0 0 0) (soldOutRun ++ refusedRun)).get (by decide +kernel)

def refusedState : State Nat :=
  (system.exec soldOutState [.client 1 2 false]).get (by decide +kernel)

theorem fast_path_sold_out :
    refusedState.shared.soldOut 888 = some true ∧ (refusedState.owner 888).inventory 888 = some 0 ∧
    ((refusedState.owner 888).process refusedState.shared { saleRequest 6 with skuId := 888 } [] 0
      default).2.inventory = (refusedState.owner 888).inventory ∧
    (after Ledger.process startLedger [(888,5,5,5),(888,1,6,6)]).inventory =
      (refusedState.shards 0).worker.inventory := by
  have h₁ : system.Run (initEngine 0 0 0 0) (soldOutRun ++ refusedRun) soldOutState :=
    System.run_of_exec (Option.some_get _).symm
  have h₂ : system.Run soldOutState [.client 1 2 false] refusedState :=
    System.run_of_exec (Option.some_get _).symm
  have hn : system.next soldOutState (.client 1 2 false) = some refusedState :=
    System.next_of_exec (Option.some_get _).symm
  have hpc : soldOutState.calls 1 = .testFlag { saleRequest 6 with skuId := 888 } := by
    decide +kernel
  have hret : refusedState.calls 1 = .ret 2 := by decide +kernel
  have hlen : (soldOutState.owner 888).processed.length = 1 := by decide +kernel
  have hproc : payloads (refusedState.shards 0).worker.processed = [(888,5,5,5)] := by decide +kernel
  have href : RefusedAt (initEngine 0 0 0 0) (soldOutRun ++ refusedRun ++ [.client 1 2 false])
      (888,1,6,6) 1 :=
    ⟨_,[],_,_,1,2,false,_,rfl,h₁,hpc,hn,hret,rfl,hlen⟩
  obtain ⟨hflag,-,hthen,hins⟩ := fast_path (h₁.append h₂) (by decide +kernel) (by decide +kernel)
  have hpc' : (refusedState.owner 888).pc = .dequeue false := by decide +kernel
  have hset : refusedState.shared.soldOut 888 = some true := by decide +kernel
  refine ⟨hset,(hflag 888 (by decide) (by simp [Worker.storing,hpc'])).mp hset,
    (hthen { saleRequest 6 with skuId := 888 } 1 href _ _ _ _).1,?_⟩
  refine (hins 0 [(true,(888,5,5,5)),(false,(888,1,6,6))] hproc.symm fun l r xs' hx => ?_).1
  rcases l with _ | ⟨y,_ | ⟨z,l⟩⟩
  · simp at hx
  · simp only [List.cons_append,List.nil_append,List.cons.injEq,Prod.mk.injEq] at hx
    obtain ⟨rfl,⟨-,rfl⟩,-⟩ := hx
    exact ⟨by decide,1,by decide,href⟩
  · simp at hx

end Flashsale.Engine
