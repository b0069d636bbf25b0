import Flashsale.SpscInvariant
set_option autoImplicit false

namespace Flashsale.SpscQueue
open Transition
variable {T : Type}

section Steps
variable {n : Nat} {q q' : State T}

theorem Inv.setProducer {p : Producer T} (h : Inv n q) (hp : ProducerOk n q p) :
    Inv n { q with producer := p } := by
  refine { h with producer := ?_ }
  cases p <;> exact hp

theorem Inv.setConsumer {c : Consumer T} (h : Inv n q) (hc : ConsumerOk q c) :
    Inv n { q with consumer := c } := by
  refine { h with consumer := ?_ }
  cases c <;> exact hc

/-- The producer copies one more item behind the tail. -/
theorem Inv.copy {p : Producer T} {c : Nat} {items : List T} {item : T} (h : Inv n q)
    (hc : Copied n q c items) (hlt : items.length < c)
    (hp : Copied n (q.write ((q.accepted.length + items.length) % (n+1)) item) c (items ++ [item]) →
      ProducerOk n (q.write ((q.accepted.length + items.length) % (n+1)) item) p) :
    Inv n { q.write ((q.accepted.length + items.length) % (n+1)) item with producer := p } := by
  have hroom := hc.1
  have hpre := h.prefix_.length_le
  refine { h with stored := ?_, producer := ?_ }
  · intro k x hk hx
    exact h.write item (by omega) k x hk hx
  · have := hp (hc.write hlt hpre)
    cases p <;> exact this

theorem Inv.batchCopy {items : List T} {item : T} {t i : Nat} (h : Inv n q)
    (hp : q.producer = .batchCopy items t i) (hi : items[i]? = some item) :
    Inv n { q.write (chunkSlot q.cells t items.length i) item with
      producer := .batchCopy items t (i+1) } := by
  obtain ⟨rfl,hle,hc⟩ : t = q.tail ∧ i ≤ items.length ∧ Copied n q items.length (items.take i) := by
    simpa [ProducerOk,hp] using h.producer
  have hlt := (List.getElem?_eq_some_iff.mp hi).1
  have hroom := hc.1
  have hpre := h.prefix_.length_le
  have hlen : (items.take i).length = i := by simp; omega
  have htake : items.take i ++ [item] = items.take (i+1) := by
    rw [List.take_add_one,hi]; rfl
  have hslot : chunkSlot q.cells q.tail items.length i =
      (q.accepted.length + (items.take i).length) % (n+1) := by
    rw [h.cells,h.tail,hlen,chunkSlot_eq (by omega) hlt]
  rw [hslot]
  refine h.copy hc (by omega) ?_
  rw [htake]
  exact fun hc' => ⟨rfl,hlt,hc'⟩

theorem Inv.produce (h : Inv n q) (hs : q.produce = some q') : Inv n q' := by
  obtain ⟨m,hm,hA⟩ := h.count
  have hok := h.producer
  cases hp : q.producer with
  | idle | ret ok => simp [State.produce,hp] at hs
  | enqLoadTail item | batchLoadTail items =>
    simp only [State.produce,hp,Option.some.injEq] at hs
    subst hs
    exact h.setProducer rfl
  | enqLoadHead item t =>
    rw [hp] at hok
    obtain rfl : t = q.tail := hok
    simp only [State.produce,hp,Option.some.injEq] at hs
    subst hs
    refine h.setProducer ?_
    split
    · trivial
    · rename_i hne
      rw [h.cells,h.tail,h.head,hA,next_eq_iff hm] at hne
      exact ⟨rfl,by omega,by simp⟩
  | enqWrite item t =>
    rw [hp] at hok
    obtain ⟨rfl,hc⟩ := hok
    simp only [State.produce,hp,Option.some.injEq] at hs
    subst hs
    have hcopy : Inv n { q.write ((q.accepted.length + 0) % (n+1)) item with
        producer := .enqStoreTail item q.tail } :=
      h.copy hc Nat.zero_lt_one (fun hc' => ⟨rfl,hc'⟩)
    simpa [← h.tail] using hcopy
  | enqStoreTail item t =>
    rw [hp] at hok
    obtain ⟨rfl,hc⟩ := hok
    simp only [State.produce,hp,Option.some.injEq] at hs
    subst hs
    exact h.storeTail (show Copied n q [item].length [item] from hc)
  | batchLoadHead items t =>
    rw [hp] at hok
    obtain rfl : t = q.tail := hok
    simp only [State.produce,hp,Option.some.injEq] at hs
    subst hs
    refine h.setProducer ?_
    split
    · trivial
    · rename_i hfree
      rw [h.cells,h.tail,h.head,hA,freeSpace_eq hm] at hfree
      exact ⟨rfl,Nat.zero_le _,by omega,by simp⟩
  | batchCopy items t i =>
    rw [hp] at hok
    obtain ⟨rfl,hle,hc⟩ := hok
    simp only [State.produce,hp] at hs
    split at hs
    · rename_i item hi
      cases hs
      exact h.batchCopy hp hi
    · rename_i hi
      cases hs
      rw [List.getElem?_eq_none_iff] at hi
      rw [List.take_of_length_le hi] at hc
      exact h.storeTail hc

theorem Inv.fetch {count : Nat} {items : List T} (h : Inv n q) (hf : Fetched q count items)
    (hlt : items.length < count) :
    Fetched q count
      (items ++ [q.buffer ((q.delivered.length + items.length) % (n+1))]) := by
  obtain ⟨-,hcount,hpre⟩ := hf
  refine ⟨by simp; omega,hcount,?_⟩
  have hk : q.delivered.length + items.length < q.accepted.length := by omega
  have hx := List.getElem?_eq_getElem hk
  rw [h.stored _ _ (by omega) hx]
  rw [List.prefix_iff_eq_take] at hpre ⊢
  rw [← List.append_assoc,hpre]
  simp only [List.length_append,List.length_take,List.length_cons,List.length_nil]
  rw [Nat.min_eq_left (by omega),List.take_add_one,hx]
  rfl

theorem Inv.batchFetch {maxCount count hd : Nat} {items : List T} (h : Inv n q)
    (hc : q.consumer = .batchCopy maxCount hd count items) (hlt : items.length < count) :
    let item := q.buffer (chunkSlot q.cells hd count items.length)
    Inv n { q with consumer := .batchCopy maxCount hd count (items ++ [item]) } := by
  intro item
  obtain ⟨rfl,hf,hmax⟩ : hd = q.head ∧ Fetched q count items ∧ (0 < maxCount → 0 < count) := by
    simpa [ConsumerOk,hc] using h.consumer
  have hroom := h.room
  have hcount := hf.2.1
  have hslot : chunkSlot q.cells q.head count items.length =
      (q.delivered.length + items.length) % (n+1) := by
    rw [h.cells,h.head,chunkSlot_eq (by omega) hlt]
  have hitem : item = q.buffer ((q.delivered.length + items.length) % (n+1)) :=
    congrArg q.buffer hslot
  rw [hitem]
  exact h.setConsumer ⟨rfl,h.fetch hf hlt,hmax⟩

theorem Inv.consume (h : Inv n q) (hs : q.consume = some q') : Inv n q' := by
  obtain ⟨m,hm,hA⟩ := h.count
  have hok := h.consumer
  cases hc : q.consumer with
  | idle | ret items => simp [State.consume,hc] at hs
  | deqLoadHead | batchLoadHead maxCount =>
    simp only [State.consume,hc,Option.some.injEq] at hs
    subst hs
    exact h.setConsumer rfl
  | deqLoadTail hd =>
    rw [hc] at hok
    obtain rfl : hd = q.head := hok
    simp only [State.consume,hc,Option.some.injEq] at hs
    subst hs
    refine h.setConsumer ?_
    split
    · trivial
    · rename_i hne
      rw [h.tail,h.head,hA,index_eq_iff hm] at hne
      exact ⟨rfl,Nat.zero_le _,by omega,by simpa using h.prefix_⟩
  | deqRead hd =>
    rw [hc] at hok
    obtain ⟨rfl,hf⟩ := hok
    simp only [State.consume,hc,Option.some.injEq] at hs
    subst hs
    have hf' := h.fetch hf Nat.zero_lt_one
    rw [List.length_nil,Nat.add_zero,← h.head] at hf'
    exact h.setConsumer ⟨rfl,hf'⟩
  | deqStoreHead hd item =>
    rw [hc] at hok
    obtain ⟨rfl,hf⟩ := hok
    simp only [State.consume,hc,Option.some.injEq] at hs
    subst hs
    exact h.storeHead (show Fetched q [item].length [item] from hf)
  | batchLoadTail maxCount hd =>
    rw [hc] at hok
    obtain rfl : hd = q.head := hok
    simp only [State.consume,hc,Option.some.injEq] at hs
    subst hs
    refine h.setConsumer ?_
    split
    · trivial
    · rename_i hne
      rw [h.tail,h.head,hA,index_eq_iff hm] at hne
      rw [h.cells,h.tail,h.head,hA,available_eq hm]
      refine ⟨h.head.symm,⟨Nat.zero_le _,by omega,by simpa using h.prefix_⟩,by omega⟩
  | batchCopy maxCount hd count items =>
    simp only [State.consume,hc] at hs
    split at hs
    · rename_i hlt
      cases hs
      exact h.batchFetch hc hlt
    · rename_i hlt
      cases hs
      rw [hc] at hok
      obtain ⟨rfl,hf,-⟩ := hok
      have hle := hf.1
      obtain rfl : count = items.length := by omega
      exact h.storeHead hf

theorem Inv.next {a : Act T} (h : Inv n q) (hs : q.next a = some q') : Inv n q' := by
  have hprod : ∀ {p}, ProducerOk n q p → q.callProducer p = some q' → Inv n q' := by
    intro p hp hs
    unfold State.callProducer at hs
    split at hs <;> cases hs <;> exact h.setProducer hp
  have hcons : ∀ {c}, ConsumerOk q c → q.callConsumer c = some q' → Inv n q' := by
    intro c hc hs
    unfold State.callConsumer at hs
    split at hs <;> cases hs <;> exact h.setConsumer hc
  cases a with
  | tryEnqueue item => exact hprod (p := .enqLoadTail item) trivial hs
  | tryEnqueueBatch items => exact hprod (p := .batchLoadTail items) trivial hs
  | produce => exact h.produce hs
  | tryDequeue => exact hcons (c := .deqLoadHead) trivial hs
  | tryDequeueBatch maxCount => exact hcons (c := .batchLoadHead maxCount) trivial hs
  | consume => exact h.consume hs

theorem reachable_inv [Inhabited T] (h : (system n).Reachable q) : Inv n q :=
  h.invariant (fun _ hs => hs ▸ create_inv n) (fun _ _ _ hi hn => hi.next hn)

end Steps

section Results
variable {n : Nat} {q q' : State T}

theorem Inv.size (h : Inv n q) : q.delivered.length + q.size = q.accepted.length := by
  obtain ⟨m,hm,hA⟩ := h.count
  have hsize : q.size = available q.cells q.head q.tail := by
    have hlt : q.head < n+1 := by rw [h.head]; exact Nat.mod_lt _ (by omega)
    simp only [State.size,available,h.cells]
    split <;> omega
  rw [hsize,h.cells,h.head,h.tail,hA,available_eq hm]

/-- The cells between the indices hold what was accepted and not delivered. -/
theorem Inv.accepted_eq (h : Inv n q) : q.accepted = q.delivered ++ q.contents := by
  have hsize := h.size
  have hpre := List.prefix_iff_eq_take.mp h.prefix_
  apply List.ext_getElem?
  intro k
  by_cases hk : k < q.delivered.length
  · rw [List.getElem?_append_left hk,hpre,List.getElem?_take_of_lt hk]
  · rw [List.getElem?_append_right (by omega)]
    by_cases hlt : k < q.accepted.length
    · have hx := List.getElem?_eq_getElem hlt
      have hb := h.stored k _ (by omega) hx
      have hcell : (q.head + (k - q.delivered.length)) % q.cells = k % (n+1) := by
        rw [h.cells,h.head,Nat.mod_add_mod]
        congr 1
        omega
      rw [hx,State.contents,List.getElem?_map,List.getElem?_range (by omega)]
      simp [hcell,hb]
    · rw [List.getElem?_eq_none (by omega),List.getElem?_eq_none]
      simp only [State.contents,List.length_map,List.length_range]
      omega

theorem Inv.contents_length (h : Inv n q) :
    q.delivered.length + q.contents.length = q.accepted.length := by
  simpa [State.contents] using h.size

theorem Inv.mem_occupied (h : Inv n q) {i : Nat} :
    i ∈ q.occupied ↔ ∃ k, q.delivered.length ≤ k ∧ k < q.accepted.length ∧ k % (n+1) = i := by
  have hsize := h.size
  simp only [State.occupied,List.mem_map,List.mem_range,h.cells,h.head,Nat.mod_add_mod]
  constructor
  · intro ⟨k,hk,he⟩
    exact ⟨q.delivered.length + k,by omega,by omega,he⟩
  · intro ⟨k,hle,hlt,he⟩
    exact ⟨k - q.delivered.length,by omega,by rw [← he]; congr 1; omega⟩

theorem Inv.writeSlot_eq (h : Inv n q) {i : Nat} (hi : q.writeSlot = some i) :
    ∃ j, q.accepted.length + j < q.delivered.length + n ∧ i = (q.accepted.length + j) % (n+1) := by
  have hok := h.producer
  have hpre := h.prefix_.length_le
  unfold State.writeSlot at hi
  split at hi
  · rename_i item t hp
    rw [hp] at hok
    obtain ⟨rfl,hc⟩ := hok
    have := hc.1
    cases hi
    exact ⟨0,by omega,h.tail⟩
  · rename_i items t j hp
    rw [hp] at hok
    obtain ⟨rfl,-,hc⟩ := hok
    have := hc.1
    split at hi
    · rename_i hlt
      cases hi
      exact ⟨j,by omega,by rw [h.cells,h.tail,chunkSlot_eq (by omega) hlt]⟩
    · cases hi
  · cases hi

theorem Inv.readSlot_eq (h : Inv n q) {i : Nat} (hi : q.readSlot = some i) :
    ∃ j, q.delivered.length + j < q.accepted.length ∧ i = (q.delivered.length + j) % (n+1) := by
  have hok := h.consumer
  have hroom := h.room
  unfold State.readSlot at hi
  split at hi
  · rename_i hd hc
    rw [hc] at hok
    obtain ⟨rfl,hf⟩ := hok
    have := hf.2.1
    cases hi
    exact ⟨0,by omega,h.head⟩
  · rename_i mx hd count items hc
    rw [hc] at hok
    obtain ⟨rfl,hf,-⟩ := hok
    have := hf.2.1
    split at hi
    · rename_i hlt
      cases hi
      exact ⟨items.length,by omega,by rw [h.cells,h.head,chunkSlot_eq (by omega) hlt]⟩
    · cases hi
  · cases hi

theorem Inv.fetched_prefix (h : Inv n q) : q.delivered ++ q.fetched <+: q.accepted := by
  have hok := h.consumer
  unfold State.fetched
  cases hc : q.consumer with
  | deqStoreHead hd item => rw [hc] at hok; exact hok.2.2.2
  | batchCopy mx hd count items => rw [hc] at hok; exact hok.2.1.2.2
  | _ => simpa using h.prefix_

/-- A refused enqueue read `head_` with too little room left. -/
theorem Inv.refused (h : Inv n q) (hs : q.produce = some q') (hr : q'.producer = .ret false) :
    (∃ item t, q.producer = .enqLoadHead item t ∧ q.contents.length = n) ∨
    ∃ items t, q.producer = .batchLoadHead items t ∧ n - q.contents.length < items.length := by
  obtain ⟨m,hm,hA⟩ := h.count
  have hlen := h.contents_length
  have hok := h.producer
  cases hp : q.producer with
  | enqLoadHead item t =>
    rw [hp] at hok
    obtain rfl : t = q.tail := hok
    simp only [State.produce,hp,Option.some.injEq] at hs
    subst hs
    simp only [h.cells,h.tail,h.head,hA,next_eq_iff hm] at hr
    split at hr
    · exact .inl ⟨item,_,rfl,by omega⟩
    · cases hr
  | batchLoadHead items t =>
    rw [hp] at hok
    obtain rfl : t = q.tail := hok
    simp only [State.produce,hp,Option.some.injEq] at hs
    subst hs
    simp only [h.cells,h.tail,h.head,hA,freeSpace_eq hm] at hr
    split at hr
    · exact .inr ⟨items,_,rfl,by omega⟩
    · cases hr
  | batchCopy items t i =>
    simp only [State.produce,hp] at hs
    split at hs <;> cases hs <;> cases hr
  | idle | ret ok => simp [State.produce,hp] at hs
  | _ =>
    simp only [State.produce,hp,Option.some.injEq] at hs
    subst hs
    cases hr

/-- A dequeue that returns nothing read `tail_` on an empty queue, or was a batch
that asked for no item. -/
theorem Inv.nothing (h : Inv n q) (hs : q.consume = some q') (hr : q'.consumer = .ret []) :
    (((∃ hd, q.consumer = .deqLoadTail hd) ∨ ∃ mx hd, q.consumer = .batchLoadTail mx hd) ∧
      q.contents = []) ∨
    ∃ hd count items, q.consumer = .batchCopy 0 hd count items := by
  obtain ⟨m,hm,hA⟩ := h.count
  have hlen := h.contents_length
  have hok := h.consumer
  cases hc : q.consumer with
  | deqLoadTail hd =>
    rw [hc] at hok
    obtain rfl : hd = q.head := hok
    simp only [State.consume,hc,Option.some.injEq] at hs
    subst hs
    simp only [h.tail,h.head,hA,index_eq_iff hm] at hr
    split at hr
    · exact .inl ⟨.inl ⟨_,rfl⟩,List.eq_nil_of_length_eq_zero (by omega)⟩
    · cases hr
  | batchLoadTail mx hd =>
    rw [hc] at hok
    obtain rfl : hd = q.head := hok
    simp only [State.consume,hc,Option.some.injEq] at hs
    subst hs
    simp only [h.tail,h.head,hA,index_eq_iff hm] at hr
    split at hr
    · exact .inl ⟨.inr ⟨mx,_,rfl⟩,List.eq_nil_of_length_eq_zero (by omega)⟩
    · cases hr
  | batchCopy mx hd count items =>
    rw [hc] at hok
    obtain ⟨-,hf,hmax⟩ := hok
    simp only [State.consume,hc] at hs
    split at hs
    · cases hs; cases hr
    · rename_i hlt
      cases hs
      simp only [State.storeHead,Consumer.ret.injEq] at hr
      subst hr
      simp only [List.length_nil] at hlt
      obtain rfl : mx = 0 := by omega
      exact .inr ⟨hd,count,[],rfl⟩
  | idle | ret items => simp [State.consume,hc] at hs
  | _ =>
    simp only [State.consume,hc,Option.some.injEq] at hs
    subst hs
    cases hr

/-- The queue refines a FIFO of `n` items. -/
theorem bounded_fifo [Inhabited T] (h : (system n).Reachable q) :
    (q.delivered ++ q.fetched <+: q.accepted ∧ q.accepted = q.delivered ++ q.contents) ∧
    q.contents.length ≤ n ∧
    (∀ i, q.writeSlot = some i ∨ q.readSlot = some i → i < q.cells) ∧
    (∀ i, q.writeSlot = some i → i ∉ q.occupied) ∧
    (∀ i, q.readSlot = some i → i ∈ q.occupied) ∧
    (∀ q', q.produce = some q' → q'.producer = .ret false →
      (∃ item t, q.producer = .enqLoadHead item t ∧ q.contents.length = n) ∨
      ∃ items t, q.producer = .batchLoadHead items t ∧ n - q.contents.length < items.length) ∧
    ∀ q', q.consume = some q' → q'.consumer = .ret [] →
      (((∃ hd, q.consumer = .deqLoadTail hd) ∨ ∃ mx hd, q.consumer = .batchLoadTail mx hd) ∧
        q.contents = []) ∨
      ∃ hd count items, q.consumer = .batchCopy 0 hd count items := by
  have hinv := reachable_inv h
  have hlen := hinv.contents_length
  have hroom := hinv.room
  refine ⟨⟨hinv.fetched_prefix,hinv.accepted_eq⟩,by omega,?_,?_,?_,
    fun q' hs hr => hinv.refused hs hr,fun q' hs hr => hinv.nothing hs hr⟩
  · intro i hi
    rw [hinv.cells]
    rcases hi with hi | hi
    · obtain ⟨j,-,rfl⟩ := hinv.writeSlot_eq hi
      exact Nat.mod_lt _ (by omega)
    · obtain ⟨j,-,rfl⟩ := hinv.readSlot_eq hi
      exact Nat.mod_lt _ (by omega)
  · intro i hi hmem
    obtain ⟨j,hj,rfl⟩ := hinv.writeSlot_eq hi
    obtain ⟨k,hle,hlt,he⟩ := hinv.mem_occupied.mp hmem
    have := Ring.window_injective (a := q.delivered.length) ⟨hle,by omega⟩
      ⟨by omega,by omega⟩ he
    omega
  · intro i hi
    obtain ⟨j,hj,rfl⟩ := hinv.readSlot_eq hi
    exact hinv.mem_occupied.mpr ⟨_,by omega,hj,rfl⟩

end Results

/-- A capacity of one, filled with the item 7. -/
def fillRun : List (Act Nat) := .tryEnqueue 7 :: List.replicate 4 .produce

def fullState : State Nat :=
  ((system 1).exec (create 1) (fillRun ++ [.tryEnqueue 8,.produce])).get (by decide)

theorem bounded_fifo_full : ∃ q' : State Nat,
    fullState.produce = some q' ∧ q'.producer = .ret false ∧
      ((∃ item t, fullState.producer = .enqLoadHead item t ∧ fullState.contents.length = 1) ∨
        ∃ items t, fullState.producer = .batchLoadHead items t ∧
          1 - fullState.contents.length < items.length) :=
  have hs := (Option.some_get (show fullState.produce.isSome by decide)).symm
  have hr : (fullState.produce.get (by decide)).producer = .ret false := by decide
  ⟨_,hs,hr,(bounded_fifo (.exec rfl (by decide))).2.2.2.2.2.1 _ hs hr⟩

def zeroState : State Nat :=
  ((system 1).exec (create 1) (fillRun ++ [.tryDequeueBatch 0,.consume])).get (by decide)

/-- A batch dequeue with `max_count` 0 returns nothing from a queue that holds an
item when `tail_` is read. -/
theorem batch_of_zero_returns_nothing : ∃ q', (system 1).Reachable zeroState ∧
    zeroState.consumer = .batchLoadTail 0 0 ∧ zeroState.contents = [7] ∧
    (system 1).Run zeroState [.consume,.consume] q' ∧ q'.consumer = .ret [] :=
  ⟨((system 1).exec zeroState [.consume,.consume]).get (by decide),.exec rfl (by decide),
    by decide,by decide,Transition.System.run_of_exec (Option.some_get _).symm,by decide⟩

end Flashsale.SpscQueue
