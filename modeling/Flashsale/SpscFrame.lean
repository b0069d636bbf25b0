import Flashsale.SpscFifo
set_option autoImplicit false

namespace Flashsale.SpscQueue
variable {T : Type} {q q' : State T}

def Producer.items : Producer T → List T
  | .enqLoadTail item | .enqLoadHead item _ | .enqWrite item _ | .enqStoreTail item _ => [item]
  | .batchLoadTail items | .batchLoadHead items _ | .batchCopy items _ _ => items
  | .idle | .ret _ => []

def State.returned (q : State T) : List T :=
  match q.consumer with
  | .ret items => items
  | _ => []

theorem State.callProducer_eq {p : Producer T} (h : q.callProducer p = some q') :
    q' = { q with producer := p } := by
  unfold State.callProducer at h
  split at h <;> cases h <;> rfl

theorem State.callConsumer_eq {c : Consumer T} (h : q.callConsumer c = some q') :
    q' = { q with consumer := c } := by
  unfold State.callConsumer at h
  split at h <;> cases h <;> rfl

theorem State.produce_cases (h : q.produce = some q') :
    (q'.delivered = q.delivered ∧ q'.consumer = q.consumer) ∧
    ((q'.accepted = q.accepted ∧ q'.producer ≠ .ret true ∧
        (q'.producer = .ret false ∨ q'.producer.items = q.producer.items)) ∨
      q'.accepted = q.accepted ++ q.producer.items ∧ q'.producer = .ret true) := by
  unfold State.produce at h
  cases hp : q.producer with
  | idle | ret ok => simp [hp] at h
  | enqLoadTail item | batchLoadTail items | enqWrite item t =>
    simp only [hp,Option.some.injEq] at h
    subst h
    exact ⟨⟨rfl,rfl⟩,.inl ⟨rfl,by simp,.inr rfl⟩⟩
  | enqLoadHead item t | batchLoadHead items t =>
    simp only [hp,Option.some.injEq] at h
    subst h
    refine ⟨⟨rfl,rfl⟩,.inl ⟨rfl,?_,?_⟩⟩
    · dsimp only
      split <;> simp
    · dsimp only
      split
      · exact .inl rfl
      · exact .inr rfl
  | enqStoreTail item t =>
    simp only [hp,Option.some.injEq] at h
    subst h
    exact ⟨⟨rfl,rfl⟩,.inr ⟨rfl,rfl⟩⟩
  | batchCopy items t i =>
    simp only [hp] at h
    split at h <;> cases h
    · exact ⟨⟨rfl,rfl⟩,.inl ⟨rfl,by simp,.inr rfl⟩⟩
    · exact ⟨⟨rfl,rfl⟩,.inr ⟨rfl,rfl⟩⟩

theorem State.consume_cases (h : q.consume = some q') :
    q'.accepted = q.accepted ∧ q'.producer = q.producer ∧
      q'.delivered = q.delivered ++ q'.returned := by
  unfold State.consume at h
  cases hc : q.consumer with
  | idle | ret items => simp [hc] at h
  | deqLoadHead | batchLoadHead mx | deqRead hd =>
    simp only [hc,Option.some.injEq] at h
    subst h
    simp [State.returned]
  | deqLoadTail hd | batchLoadTail mx hd =>
    simp only [hc,Option.some.injEq] at h
    subst h
    by_cases he : hd = q.tail <;> simp [State.returned,he]
  | deqStoreHead hd item =>
    simp only [hc,Option.some.injEq] at h
    subst h
    simp [State.returned,State.storeHead]
  | batchCopy mx hd count items =>
    simp only [hc] at h
    split at h <;> cases h <;> simp [State.returned,State.storeHead]

theorem State.next_delivered {a : Act T} (h : q.next a = some q') : q.delivered <+: q'.delivered := by
  cases a with
  | tryEnqueue item | tryEnqueueBatch items =>
    obtain rfl := State.callProducer_eq h
    exact List.prefix_refl _
  | tryDequeue | tryDequeueBatch mx =>
    obtain rfl := State.callConsumer_eq h
    exact List.prefix_refl _
  | produce =>
    simp [(State.produce_cases h).1.1]
  | consume =>
    rw [(State.consume_cases h).2.2]
    exact List.prefix_append _ _

def Consumer.Asks (n : Nat) : Consumer T → Prop
  | .batchLoadHead m | .batchLoadTail m _ | .batchCopy m _ _ _ => m = n
  | .idle | .ret _ => True
  | .deqLoadHead | .deqLoadTail _ | .deqRead _ | .deqStoreHead _ _ => False

theorem Consumer.Asks.consume {n : Nat} (h : q.consumer.Asks n) (hs : q.consume = some q') :
    q'.consumer.Asks n := by
  unfold State.consume at hs
  cases hc : q.consumer with
  | idle | ret items => simp [hc] at hs
  | batchLoadHead mx =>
    simp only [hc,Option.some.injEq] at hs
    subst hs
    simpa [hc,Consumer.Asks] using h
  | batchLoadTail mx hd =>
    simp only [hc,Option.some.injEq] at hs
    subst hs
    by_cases he : hd = q.tail
    · simp [he,Consumer.Asks]
    · simpa [he,hc,Consumer.Asks] using h
  | batchCopy mx hd count items =>
    simp only [hc] at hs
    split at hs <;> cases hs
    · simpa [hc,Consumer.Asks] using h
    · simp [State.storeHead,Consumer.Asks]
  | _ => simp [hc,Consumer.Asks] at h

theorem Inv.empty_of_returned {n m : Nat} (h : Inv n q) (ha : q.consumer.Asks m) (hm : 0 < m)
    (hs : q.consume = some q') (hr : q'.consumer = .ret []) :
    q'.delivered.length = q'.accepted.length := by
  obtain ⟨hacc,-,hdel⟩ := State.consume_cases hs
  have hlen := h.contents_length
  rcases h.nothing hs hr with ⟨-,hempty⟩ | ⟨hd,count,items,hc⟩
  · rw [hempty] at hlen
    simp only [hacc,hdel,State.returned,hr,List.append_nil]
    simpa using hlen
  · rw [hc] at ha
    exact absurd ha (by simp [Consumer.Asks]; omega)

def Consumer.Single : Consumer T → Prop
  | .ret items => items.length ≤ 1
  | .idle | .deqLoadHead | .deqLoadTail _ | .deqRead _ | .deqStoreHead _ _ => True
  | .batchLoadHead _ | .batchLoadTail _ _ | .batchCopy _ _ _ _ => False

theorem Consumer.Single.consume (h : q.consumer.Single) (hs : q.consume = some q') :
    q'.consumer.Single := by
  unfold State.consume at hs
  cases hc : q.consumer with
  | idle | ret items => simp [hc] at hs
  | deqLoadTail hd =>
    simp only [hc,Option.some.injEq] at hs
    subst hs
    by_cases he : hd = q.tail <;> simp [he,Consumer.Single]
  | batchLoadHead mx | batchLoadTail mx hd | batchCopy mx hd count items =>
    simp [hc,Consumer.Single] at h
  | _ =>
    simp only [hc,Option.some.injEq] at hs
    subst hs
    simp [State.storeHead,Consumer.Single]

def Consumer.atRest : Consumer T → Bool
  | .idle | .ret _ => true
  | _ => false

theorem State.callConsumer_isSome {c : Consumer T} (h : q.consumer.atRest) :
    q.callConsumer c = some { q with consumer := c } := by
  unfold State.callConsumer
  cases hc : q.consumer <;> simp_all [Consumer.atRest]

theorem State.consume_ne_idle (h : q.consume = some q') : q'.consumer ≠ .idle := by
  unfold State.consume at h
  cases hc : q.consumer with
  | idle | ret items => simp [hc] at h
  | deqLoadTail hd | batchLoadTail mx hd =>
    simp only [hc,Option.some.injEq] at h
    subst h
    by_cases he : hd = q.tail <;> simp [he]
  | batchCopy mx hd count items =>
    simp only [hc] at h
    split at h <;> cases h <;> simp [State.storeHead]
  | _ =>
    simp only [hc,Option.some.injEq] at h
    subst h
    simp [State.storeHead]

end Flashsale.SpscQueue
