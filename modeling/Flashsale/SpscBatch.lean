import Flashsale.SpscFrame
import Mathlib
set_option autoImplicit false

/-!
A batch call does what single calls one after the other do. A whole call is run with
the other side standing still, wherever it stands; what it leaves is told by the
histories, of which the indices and the stored items are functions.
-/

namespace Flashsale.SpscQueue
open Transition
variable {T : Type}

def Producer.Resting : Producer T → Prop
  | .idle | .ret _ => True
  | _ => False

def Consumer.Resting : Consumer T → Prop
  | .idle | .ret _ => True
  | _ => False

def Producer.left : Producer T → Nat
  | .idle | .ret _ => 0
  | .enqLoadTail _ => 4
  | .enqLoadHead _ _ => 3
  | .enqWrite _ _ => 2
  | .enqStoreTail _ _ => 1
  | .batchLoadTail items => items.length + 3
  | .batchLoadHead items _ => items.length + 2
  | .batchCopy items _ i => items.length - i + 1

def Consumer.left : Consumer T → Nat
  | .idle | .ret _ => 0
  | .deqLoadHead => 4
  | .deqLoadTail _ => 3
  | .deqRead _ => 2
  | .deqStoreHead _ _ => 1
  | .batchLoadHead maxCount => maxCount + 3
  | .batchLoadTail maxCount _ => maxCount + 2
  | .batchCopy _ _ count items => count - items.length + 1

def State.Sized (q : State T) : Prop :=
  q.accepted = q.delivered ++ q.contents ∧ q.size = q.contents.length

def State.Same (q q' : State T) : Prop :=
  q.head = q'.head ∧ q.tail = q'.tail ∧ q.contents = q'.contents

theorem Inv.sized {n : Nat} {q : State T} (h : Inv n q) : q.Sized :=
  ⟨h.accepted_eq,by simp [State.contents]⟩

section Producer
variable {n : Nat} {q₀ q q' : State T} {items : List T}

theorem Inv.same (h : Inv n q) (h' : Inv n q') (ha : q.accepted = q'.accepted)
    (hd : q.delivered = q'.delivered) : q.Same q' := by
  refine ⟨by rw [h.head,h'.head,hd],by rw [h.tail,h'.tail,ha],?_⟩
  have he := h.accepted_eq
  rw [ha,h'.accepted_eq,hd] at he
  exact (List.append_cancel_left he).symm

/-- The producer's call for `items`, made in `q₀`, with the consumer standing still. -/
structure Offering (n : Nat) (q₀ : State T) (items : List T) (q : State T) : Prop where
  inv : Inv n q
  delivered : q.delivered = q₀.delivered
  published : q.producer = .ret true → q.accepted = q₀.accepted ++ items
  refused : q.producer = .ret false →
    q.accepted = q₀.accepted ∧ n < q₀.contents.length + items.length
  pending : ¬q.producer.Resting → q.accepted = q₀.accepted ∧ q.producer.items = items

theorem State.not_resting_of_produce (h : q.produce = some q') : ¬q.producer.Resting := by
  intro hr
  cases hp : q.producer with
  | idle | ret ok => simp [State.produce,hp] at h
  | _ => simp [hp,Producer.Resting] at hr

theorem Offering.produce (h : Offering n q₀ items q) (hi : Inv n q₀) (hs : q.produce = some q') :
    Offering n q₀ items q' := by
  obtain ⟨hacc,hitems⟩ := h.pending (State.not_resting_of_produce hs)
  obtain ⟨⟨hdel,-⟩,hcases⟩ := State.produce_cases hs
  refine ⟨h.inv.produce hs,hdel.trans h.delivered,fun hr => ?_,fun hr => ?_,fun hr => ?_⟩
  · obtain ⟨-,hne,-⟩ | ⟨hpub,-⟩ := hcases
    · exact absurd hr hne
    · rw [hpub,hacc,hitems]
  · have hlen : q.contents.length = q₀.contents.length := by
      have h1 := h.inv.contents_length
      have h2 := hi.contents_length
      rw [hacc,h.delivered] at h1
      omega
    obtain ⟨hkeep,-⟩ | ⟨-,hret⟩ := hcases
    · refine ⟨hkeep.trans hacc,?_⟩
      rcases h.inv.refused hs hr with ⟨item,t,hp,hfull⟩ | ⟨its,t,hp,hfull⟩
      · rw [hp] at hitems
        subst hitems
        simp only [Producer.items,List.length_singleton]
        omega
      · rw [hp] at hitems
        subst hitems
        simp only [Producer.items]
        omega
    · rw [hr] at hret
      cases hret
  · obtain ⟨hkeep,-,hend | hsame⟩ | ⟨-,hret⟩ := hcases
    · rw [hend] at hr
      exact absurd trivial hr
    · exact ⟨hkeep.trans hacc,hsame.trans hitems⟩
    · rw [hret] at hr
      exact absurd trivial hr

def Act.offered : Act T → Option (List T)
  | .tryEnqueue item => some [item]
  | .tryEnqueueBatch items => some items
  | _ => none

theorem Offering.call {a : Act T} (hi : Inv n q) (ha : a.offered = some items)
    (hs : q.next a = some q') : Offering n q items q' ∧ q'.producer ≠ .idle := by
  have hinv := hi.next hs
  cases a with
  | tryEnqueue item | tryEnqueueBatch its =>
    cases ha
    obtain rfl := State.callProducer_eq hs
    refine ⟨⟨hinv,rfl,?_,?_,fun _ => ⟨rfl,rfl⟩⟩,by simp⟩
    · intro hr; cases hr
    · intro hr; cases hr
  | _ => cases ha

theorem State.produce_left (h : ¬q.producer.Resting) :
    ∃ q', q.produce = some q' ∧ q'.producer ≠ .idle ∧ q'.producer.left < q.producer.left := by
  cases hp : q.producer with
  | idle | ret ok => rw [hp] at h; exact absurd trivial h
  | enqLoadHead item t | batchLoadHead items t =>
    simp only [State.produce,hp,Option.some.injEq,exists_eq_left']
    split <;> simp [Producer.left]
  | batchCopy items t i =>
    simp only [State.produce,hp]
    cases hi : items[i]? with
    | none => exact ⟨_,rfl,by simp [State.storeTail],by simp [State.storeTail,Producer.left]⟩
    | some item =>
      have := (List.getElem?_eq_some_iff.mp hi).1
      exact ⟨_,rfl,by simp,by simp only [Producer.left]; omega⟩
  | _ =>
    simp only [State.produce,hp,Option.some.injEq,exists_eq_left']
    simp [State.storeTail,Producer.left]

section Calls
variable [Inhabited T] {a : Act T} {ok : Bool}

/-- A whole call of the producer: `a`, and its steps up to its return of `ok`. -/
def Produced (n : Nat) (q : State T) (a : Act T) (ok : Bool) (q' : State T) : Prop :=
  ∃ m, (system n).Run q (a :: List.replicate m .produce) q' ∧ q'.producer = .ret ok

theorem Produced.offering (hi : Inv n q) (ha : a.offered = some items)
    (h : Produced n q a ok q') : Offering n q items q' := by
  obtain ⟨m,hrun,-⟩ := h
  cases hrun with
  | cons hn hrest =>
    refine hrest.invariant_along (P := fun _ b => b = .produce) (I := Offering n q items) ?_
      (System.along_of_forall fun b hb _ => List.eq_of_mem_replicate hb) (Offering.call hi ha hn).1
    rintro s _ t hs rfl ht
    exact hs.produce hi ht

theorem Produced.resting (ha : a.offered = some items) (h : Produced n q a ok q') :
    q.producer.Resting := by
  obtain ⟨m,hrun,-⟩ := h
  cases hrun with
  | cons hn _ =>
    cases a with
    | tryEnqueue item | tryEnqueueBatch its =>
      simp only [system,State.next,State.callProducer] at hn
      split at hn
      · rename_i hp; rw [hp]; trivial
      · rename_i hp; rw [hp]; trivial
      · cases hn
    | _ => cases ha

theorem Produced.ok_iff (hi : Inv n q) (ha : a.offered = some items) (h : Produced n q a ok q') :
    ok = true ↔ q.contents.length + items.length ≤ n := by
  have ho := h.offering hi ha
  have hlen := hi.contents_length
  obtain ⟨m,-,hret⟩ := h
  cases ok with
  | true =>
    have hroom := ho.inv.room
    rw [ho.published hret,ho.delivered,List.length_append] at hroom
    simp only [true_iff]
    omega
  | false =>
    have := (ho.refused hret).2
    simp only [Bool.false_eq_true,false_iff]
    omega

theorem exists_produced (hi : Inv n q) (ha : a.offered = some items) (hr : q.producer.Resting) :
    ∃ ok q', Produced n q a ok q' := by
  obtain ⟨s,hs⟩ : ∃ s, q.next a = some s := by
    cases hp : q.producer with
    | idle | ret ok =>
      cases a with
      | tryEnqueue item | tryEnqueueBatch its => exact ⟨_,by simp only [State.next,State.callProducer,hp]; rfl⟩
      | _ => cases ha
    | _ => rw [hp] at hr; exact hr.elim
  obtain ⟨m,t,hrun,hidle,hrest⟩ := System.run_until (M := system n)
    (I := fun s => s.producer ≠ .idle) (P := fun s => s.producer.Resting)
    (fun s => s.producer.left) .produce (fun s _ hnot => State.produce_left hnot)
    (Offering.call hi ha hs).2
  cases hp : t.producer with
  | ret ok => exact ⟨ok,t,m,.cons hs hrun,hp⟩
  | idle => exact absurd hp hidle
  | _ => rw [hp] at hrest; exact hrest.elim

inductive Enqueued (n : Nat) : State T → List T → State T → Prop where
  | nil (q : State T) : Enqueued n q [] q
  | cons {q s t : State T} {item : T} {items : List T} :
      Produced n q (.tryEnqueue item) true s → Enqueued n s items t → Enqueued n q (item :: items) t

theorem Enqueued.histories (hi : Inv n q) (h : Enqueued n q items q') :
    Inv n q' ∧ q'.delivered = q.delivered ∧ q'.accepted = q.accepted ++ items := by
  induction h with
  | nil q => exact ⟨hi,rfl,by simp⟩
  | @cons q s t item items hcall _ ih =>
    have ho := hcall.offering hi rfl
    obtain ⟨m,-,hret⟩ := hcall
    obtain ⟨hinv,hdel,hacc⟩ := ih ho.inv
    refine ⟨hinv,hdel.trans ho.delivered,?_⟩
    rw [hacc,ho.published hret,List.append_assoc]
    rfl

theorem exists_enqueued_iff (hi : Inv n q) (hr : q.producer.Resting) :
    (∃ q', Enqueued n q items q') ↔ q.contents.length + items.length ≤ n := by
  constructor
  · rintro ⟨q',h⟩
    obtain ⟨hinv,hdel,hacc⟩ := h.histories hi
    have hroom := hinv.room
    have hlen := hi.contents_length
    rw [hacc,hdel,List.length_append] at hroom
    omega
  · intro hroom
    induction items generalizing q with
    | nil => exact ⟨q,.nil q⟩
    | cons item items ih =>
      rw [List.length_cons] at hroom
      obtain ⟨ok,s,hcall⟩ := exists_produced hi (a := .tryEnqueue item) rfl hr
      obtain rfl : ok = true := (hcall.ok_iff hi rfl).mpr (by rw [List.length_singleton]; omega)
      have ho := hcall.offering hi rfl
      obtain ⟨m,hrun,hret⟩ := id hcall
      have hlen : s.contents.length = q.contents.length + 1 := by
        have h1 := hi.contents_length
        have h2 := ho.inv.contents_length
        rw [ho.published hret,ho.delivered,List.length_append,List.length_singleton] at h2
        omega
      obtain ⟨t,ht⟩ := ih ho.inv (by rw [hret]; trivial) (by omega)
      exact ⟨t,.cons hcall ht⟩

end Calls
end Producer

section Consumer
variable {n : Nat} {q₀ q q' : State T} {items : List T} {max : Nat}

/-- Where a call for up to `max` items stands that is to take `count` of them. -/
def Consumer.Wants (max count : Nat) : Consumer T → Prop
  | .deqLoadHead | .deqLoadTail _ => max = 1
  | .deqRead _ | .deqStoreHead _ _ => max = 1 ∧ count = 1
  | .batchLoadHead m | .batchLoadTail m _ => m = max
  | .batchCopy m _ c _ => m = max ∧ c = count
  | .idle | .ret _ => True

/-- The consumer's call for up to `max` items, made in `q₀`, with the producer standing
still. -/
structure Taking (n : Nat) (q₀ : State T) (max : Nat) (q : State T) : Prop where
  inv : Inv n q
  accepted : q.accepted = q₀.accepted
  returned : ∀ items, q.consumer = .ret items →
    items = q₀.contents.take max ∧ q.delivered = q₀.delivered ++ items
  pending : ¬q.consumer.Resting → q.delivered = q₀.delivered ∧
    q.consumer.Wants max (min q₀.contents.length max)

theorem Inv.head_eq_tail_iff (h : Inv n q) : q.head = q.tail ↔ q.contents = [] := by
  obtain ⟨m,hm,hA⟩ := h.count
  have hlen := h.contents_length
  rw [h.tail,h.head,hA,index_eq_iff hm,← List.length_eq_zero_iff]
  omega

theorem Inv.available_eq_length (h : Inv n q) :
    available q.cells q.head q.tail = q.contents.length := by
  obtain ⟨m,hm,hA⟩ := h.count
  have hlen := h.contents_length
  rw [h.cells,h.tail,h.head,hA,available_eq hm]
  omega

theorem Inv.delivered_take (h : Inv n q) (hi : Inv n q₀) (ha : q.accepted = q₀.accepted)
    (hd : q.delivered = q₀.delivered ++ items) (hlen : items.length = min q₀.contents.length max) :
    items = q₀.contents.take max := by
  have hpre := h.prefix_
  rw [ha,hd,hi.accepted_eq,List.prefix_append_right_inj,List.prefix_iff_eq_take] at hpre
  rw [hpre,hlen,Nat.min_comm,← List.take_take,List.take_length]

theorem State.not_resting_of_consume (h : q.consume = some q') : ¬q.consumer.Resting := by
  intro hr
  cases hc : q.consumer with
  | idle | ret items => simp [State.consume,hc] at h
  | _ => simp [hc,Consumer.Resting] at hr

theorem Taking.consume (h : Taking n q₀ max q) (hi : Inv n q₀) (hs : q.consume = some q') :
    Taking n q₀ max q' := by
  obtain ⟨hdel,hwants⟩ := h.pending (State.not_resting_of_consume hs)
  obtain ⟨hacc,-,hdel'⟩ := State.consume_cases hs
  have hcont : q.contents = q₀.contents := (h.inv.same hi h.accepted hdel).2.2
  have hinv := h.inv.consume hs
  have hok := h.inv.consumer
  have hend : ∀ {its : List T}, q'.consumer = .ret its → its.length = min q₀.contents.length max →
      Taking n q₀ max q' := by
    intro its hr hlen
    have hd : q'.delivered = q₀.delivered ++ its := by
      rw [hdel',hdel,State.returned,hr]
    refine ⟨hinv,hacc.trans h.accepted,?_,fun hnot => by rw [hr] at hnot; exact absurd trivial hnot⟩
    intro its' hr'
    rw [hr] at hr'
    cases hr'
    exact ⟨hinv.delivered_take hi (hacc.trans h.accepted) hd hlen,hd⟩
  have hgo : ¬q'.consumer.Resting → q'.consumer.Wants max (min q₀.contents.length max) →
      Taking n q₀ max q' := by
    intro hnot hw
    have hempty : q'.returned = [] := by
      unfold State.returned
      split
      · rename_i its hr
        rw [hr] at hnot
        exact absurd trivial hnot
      · rfl
    refine ⟨hinv,hacc.trans h.accepted,?_,fun _ => ⟨?_,hw⟩⟩
    · intro its hr
      rw [hr] at hnot
      exact absurd trivial hnot
    · rw [hdel',hempty,List.append_nil,hdel]
  cases hc : q.consumer with
  | idle | ret its => simp [State.consume,hc] at hs
  | deqLoadHead | batchLoadHead m | deqRead hd =>
    rw [hc] at hwants
    simp only [State.consume,hc,Option.some.injEq] at hs
    subst hs
    exact hgo id hwants
  | deqLoadTail hd =>
    rw [hc] at hwants hok
    obtain rfl : hd = q.head := hok
    obtain rfl : max = 1 := hwants
    simp only [State.consume,hc,Option.some.injEq] at hs
    by_cases he : q.head = q.tail
    · rw [if_pos he] at hs
      subst hs
      rw [h.inv.head_eq_tail_iff,hcont] at he
      exact hend rfl (by simp [he])
    · rw [if_neg he] at hs
      subst hs
      rw [h.inv.head_eq_tail_iff,hcont] at he
      have hpos := List.length_pos_iff.mpr he
      exact hgo id ⟨rfl,by omega⟩
  | deqStoreHead hd item =>
    rw [hc] at hwants
    obtain ⟨rfl,hcount⟩ := hwants
    simp only [State.consume,hc,Option.some.injEq] at hs
    subst hs
    exact hend rfl (by rw [hcount]; rfl)
  | batchLoadTail m hd =>
    rw [hc] at hwants hok
    obtain rfl : hd = q.head := hok
    obtain rfl : m = max := hwants
    simp only [State.consume,hc,Option.some.injEq] at hs
    by_cases he : q.head = q.tail
    · rw [if_pos he] at hs
      subst hs
      rw [h.inv.head_eq_tail_iff,hcont] at he
      exact hend rfl (by simp [he])
    · rw [if_neg he] at hs
      subst hs
      exact hgo id ⟨rfl,by rw [h.inv.available_eq_length,hcont]⟩
  | batchCopy m hd count its =>
    rw [hc] at hwants hok
    obtain ⟨rfl,rfl⟩ := hwants
    simp only [State.consume,hc] at hs
    by_cases hlt : its.length < min q₀.contents.length m
    · rw [if_pos hlt] at hs
      cases hs
      exact hgo id ⟨rfl,rfl⟩
    · rw [if_neg hlt] at hs
      cases hs
      have hle := hok.2.1.1
      exact hend rfl (by omega)

def Act.asked : Act T → Option Nat
  | .tryDequeue => some 1
  | .tryDequeueBatch maxCount => some maxCount
  | _ => none

theorem Taking.call {a : Act T} (hi : Inv n q) (ha : a.asked = some max) (hs : q.next a = some q') :
    Taking n q max q' ∧ q'.consumer ≠ .idle := by
  have hinv := hi.next hs
  cases a with
  | tryDequeue | tryDequeueBatch m =>
    cases ha
    obtain rfl := State.callConsumer_eq hs
    refine ⟨⟨hinv,rfl,?_,fun _ => ⟨rfl,rfl⟩⟩,by simp⟩
    intro its hr; cases hr
  | _ => cases ha

theorem State.consume_left (h : ¬q.consumer.Resting) :
    ∃ q', q.consume = some q' ∧ q'.consumer ≠ .idle ∧ q'.consumer.left < q.consumer.left := by
  cases hc : q.consumer with
  | idle | ret its => rw [hc] at h; exact absurd trivial h
  | deqLoadTail hd =>
    simp only [State.consume,hc,Option.some.injEq,exists_eq_left']
    split <;> simp [Consumer.left]
  | batchLoadTail m hd =>
    simp only [State.consume,hc,Option.some.injEq,exists_eq_left']
    split
    · simp [Consumer.left]
    · exact ⟨by simp,by simp only [Consumer.left,List.length_nil]; omega⟩
  | batchCopy m hd count its =>
    simp only [State.consume,hc]
    by_cases hlt : its.length < count
    · rw [if_pos hlt]
      refine ⟨_,rfl,by simp,?_⟩
      simp only [Consumer.left,List.length_append,List.length_singleton]
      omega
    · rw [if_neg hlt]
      exact ⟨_,rfl,by simp [State.storeHead],by simp [State.storeHead,Consumer.left]⟩
  | _ =>
    simp only [State.consume,hc,Option.some.injEq,exists_eq_left']
    simp [State.storeHead,Consumer.left]

section Calls
variable [Inhabited T] {a : Act T}

/-- A whole call of the consumer: `a`, and its steps up to its return of `items`. -/
def Consumed (n : Nat) (q : State T) (a : Act T) (items : List T) (q' : State T) : Prop :=
  ∃ m, (system n).Run q (a :: List.replicate m .consume) q' ∧ q'.consumer = .ret items

theorem Consumed.taking (hi : Inv n q) (ha : a.asked = some max) (h : Consumed n q a items q') :
    Inv n q' ∧ q'.accepted = q.accepted ∧ items = q.contents.take max ∧
      q'.delivered = q.delivered ++ items := by
  obtain ⟨m,hrun,hret⟩ := h
  cases hrun with
  | cons hn hrest =>
    have ht : Taking n q max q' := by
      refine hrest.invariant_along (P := fun _ b => b = .consume) (I := Taking n q max) ?_
        (System.along_of_forall fun b hb _ => List.eq_of_mem_replicate hb) (Taking.call hi ha hn).1
      rintro s _ t hs rfl hst
      exact hs.consume hi hst
    exact ⟨ht.inv,ht.accepted,ht.returned items hret⟩

theorem Consumed.resting (ha : a.asked = some max) (h : Consumed n q a items q') :
    q.consumer.Resting := by
  obtain ⟨m,hrun,-⟩ := h
  cases hrun with
  | cons hn _ =>
    cases a with
    | tryDequeue | tryDequeueBatch m =>
      simp only [system,State.next,State.callConsumer] at hn
      split at hn
      · rename_i hc; rw [hc]; trivial
      · rename_i hc; rw [hc]; trivial
      · cases hn
    | _ => cases ha

theorem exists_consumed (hi : Inv n q) (ha : a.asked = some max) (hr : q.consumer.Resting) :
    ∃ items q', Consumed n q a items q' := by
  obtain ⟨s,hs⟩ : ∃ s, q.next a = some s := by
    cases hc : q.consumer with
    | idle | ret its =>
      cases a with
      | tryDequeue | tryDequeueBatch m =>
        exact ⟨_,by simp only [State.next,State.callConsumer,hc]; rfl⟩
      | _ => cases ha
    | _ => rw [hc] at hr; exact hr.elim
  obtain ⟨m,t,hrun,hidle,hrest⟩ := System.run_until (M := system n)
    (I := fun s => s.consumer ≠ .idle) (P := fun s => s.consumer.Resting)
    (fun s => s.consumer.left) .consume (fun s _ hnot => State.consume_left hnot)
    (Taking.call hi ha hs).2
  cases hc : t.consumer with
  | ret items => exact ⟨items,t,m,.cons hs hrun,hc⟩
  | idle => exact absurd hc hidle
  | _ => rw [hc] at hrest; exact hrest.elim

inductive Dequeued (n : Nat) : State T → Nat → List T → State T → Prop where
  | done (q : State T) : Dequeued n q 0 [] q
  | empty {q s : State T} {max : Nat} : Consumed n q .tryDequeue [] s → Dequeued n q (max+1) [] s
  | item {q s t : State T} {max : Nat} {x : T} {items : List T} :
      Consumed n q .tryDequeue [x] s → Dequeued n s max items t →
      Dequeued n q (max+1) (x :: items) t

omit [Inhabited T] in
theorem Inv.contents_split (h : Inv n q) (h' : Inv n q') (ha : q'.accepted = q.accepted)
    (hd : q'.delivered = q.delivered ++ items) : q.contents = items ++ q'.contents := by
  have he := h'.accepted_eq
  rw [ha,h.accepted_eq,hd,List.append_assoc] at he
  exact List.append_cancel_left he

theorem Dequeued.histories (hi : Inv n q) (h : Dequeued n q max items q') :
    Inv n q' ∧ q'.accepted = q.accepted ∧ items = q.contents.take max ∧
      q'.delivered = q.delivered ++ items := by
  induction h with
  | done q => exact ⟨hi,rfl,by simp,by simp⟩
  | @empty q s max hcall =>
    obtain ⟨hinv,hacc,htake,hdel⟩ := hcall.taking hi rfl
    refine ⟨hinv,hacc,?_,hdel⟩
    cases hc : q.contents with
    | nil => rfl
    | cons x rest => rw [hc] at htake; cases htake
  | @item q s t max x items hcall _ ih =>
    obtain ⟨hinv,hacc,-,hdel⟩ := hcall.taking hi rfl
    obtain ⟨hinv',hacc',htake',hdel'⟩ := ih hinv
    refine ⟨hinv',hacc'.trans hacc,?_,?_⟩
    · rw [hi.contents_split hinv hacc hdel,htake']
      rfl
    · rw [hdel',hdel,List.append_assoc]
      rfl

theorem exists_dequeued (hi : Inv n q) (hr : q.consumer.Resting) :
    ∃ items q', Dequeued n q max items q' := by
  induction max generalizing q with
  | zero => exact ⟨[],q,.done q⟩
  | succ max ih =>
    obtain ⟨items,s,hcall⟩ := exists_consumed hi (a := .tryDequeue) rfl hr
    obtain ⟨hinv,-,htake,-⟩ := hcall.taking hi rfl
    obtain ⟨m,-,hret⟩ := id hcall
    have hlen : items.length ≤ 1 := by rw [htake,List.length_take]; exact Nat.min_le_left _ _
    match items, hlen with
    | [], _ => exact ⟨[],s,.empty hcall⟩
    | [x], _ =>
      obtain ⟨items,t,ht⟩ := ih hinv (by rw [hret]; trivial)
      exact ⟨x :: items,t,.item hcall ht⟩

/-- Batch calls are the single calls they stand for: they return, with the same result,
and leave the same indices and stored items. -/
theorem batch_eq_singles (h : (system n).Reachable q) : q.Sized ∧
    (q.producer.Resting → ∀ items, ∃ ok q', Produced n q (.tryEnqueueBatch items) ok q') ∧
    (∀ items ok q', Produced n q (.tryEnqueueBatch items) ok q' → q'.Sized ∧
      (ok = true ↔ ∃ q'', Enqueued n q items q'') ∧
      (ok = true → ∀ q'', Enqueued n q items q'' → q'.Same q'' ∧ q''.Sized) ∧
      (ok = false → q'.Same q)) ∧
    (q.consumer.Resting → ∀ max, ∃ items q', Consumed n q (.tryDequeueBatch max) items q') ∧
    ∀ max items q', Consumed n q (.tryDequeueBatch max) items q' → q'.Sized ∧
      (∃ q'', Dequeued n q max items q'') ∧
      ∀ items' q'', Dequeued n q max items' q'' → items' = items ∧ q'.Same q'' ∧ q''.Sized := by
  have hi := reachable_inv h
  refine ⟨hi.sized,fun hr _ => exists_produced hi rfl hr,?_,fun hr _ => exists_consumed hi rfl hr,?_⟩
  · intro items ok q' hcall
    have ho := hcall.offering hi rfl
    have hok := hcall.ok_iff hi rfl
    have hr := hcall.resting rfl
    obtain ⟨m,-,hret⟩ := hcall
    refine ⟨ho.inv.sized,by rw [hok,exists_enqueued_iff hi hr],?_,?_⟩
    · rintro rfl q'' hq''
      obtain ⟨hinv,hdel,hacc⟩ := hq''.histories hi
      exact ⟨ho.inv.same hinv ((ho.published hret).trans hacc.symm) (ho.delivered.trans hdel.symm),
        hinv.sized⟩
    · rintro rfl
      exact ho.inv.same hi (ho.refused hret).1 ho.delivered
  · intro max items q' hcall
    obtain ⟨hinv,hacc,htake,hdel⟩ := hcall.taking hi rfl
    have hsame : ∀ items' q'', Dequeued n q max items' q'' →
        items' = items ∧ q'.Same q'' ∧ q''.Sized := by
      intro items' q'' hq''
      obtain ⟨hinv',hacc',htake',hdel'⟩ := hq''.histories hi
      obtain rfl : items' = items := htake'.trans htake.symm
      exact ⟨rfl,hinv.same hinv' (hacc.trans hacc'.symm) (hdel.trans hdel'.symm),hinv'.sized⟩
    obtain ⟨items',q'',hq''⟩ : ∃ items' q'', Dequeued n q max items' q'' :=
      exists_dequeued hi (hcall.resting rfl)
    exact ⟨hinv.sized,⟨q'',(hsame _ _ hq'').1 ▸ hq''⟩,hsame⟩

end Calls
end Consumer

def lastCell : State Nat :=
  ((system 2).exec (create 2) (.tryEnqueueBatch [5,6] :: List.replicate 5 .produce ++
    .tryDequeueBatch 2 :: List.replicate 5 .consume)).get (by decide)

/-- A batch that goes round the end of the buffer. -/
theorem batch_eq_singles_wrapped : ∃ q' q'' : State Nat,
    Produced 2 lastCell (.tryEnqueueBatch [7,8]) true q' ∧ Enqueued 2 lastCell [7,8] q'' ∧
      q'.Same q'' ∧ q'.tail = 1 := by
  have hcall : Produced 2 lastCell (.tryEnqueueBatch [7,8]) true
      (((system 2).exec lastCell (.tryEnqueueBatch [7,8] :: List.replicate 5 .produce)).get
        (by decide)) := ⟨5,System.run_of_exec (Option.some_get _).symm,by decide⟩
  obtain ⟨-,hiff,hsame,-⟩ :=
    (batch_eq_singles (.exec rfl (by decide) : (system 2).Reachable lastCell)).2.2.1 _ _ _ hcall
  obtain ⟨q'',hq''⟩ := hiff.mp rfl
  exact ⟨_,q'',hcall,hq'',(hsame rfl q'' hq'').1,by decide⟩

end Flashsale.SpscQueue
