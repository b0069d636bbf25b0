import Flashsale.SpscQueue
set_option autoImplicit false

/-!
The invariant of the queue: `head_` and `tail_` are the numbers of items
delivered and accepted, taken round the ring, and the cells between them hold
the items accepted and not delivered yet.
-/

namespace Flashsale.SpscQueue
variable {T : Type}

section Arithmetic
variable {n d m i : Nat}

theorem freeSpace_eq (hm : m ≤ n) :
    freeSpace (n+1) (d % (n+1)) ((d+m) % (n+1)) = n - m := by
  have hd : d % (n+1) < n+1 := Nat.mod_lt _ (by omega)
  rw [freeSpace,Ring.add_mod_wrap d (by omega : m < n+1)]
  split <;> split <;> omega

theorem available_eq (hm : m ≤ n) :
    available (n+1) (d % (n+1)) ((d+m) % (n+1)) = m := by
  have hd : d % (n+1) < n+1 := Nat.mod_lt _ (by omega)
  rw [available,Ring.add_mod_wrap d (by omega : m < n+1)]
  split <;> split <;> omega

/-- The two chunks of a batch are one run of cells round the ring. -/
theorem chunkSlot_eq (hm : m ≤ n) (hi : i < m) :
    chunkSlot (n+1) (d % (n+1)) m i = (d+i) % (n+1) := by
  have hd : d % (n+1) < n+1 := Nat.mod_lt _ (by omega)
  rw [chunkSlot,Ring.add_mod_wrap d (by omega : i < n+1)]
  split <;> split <;> omega

theorem index_eq_iff (hm : m ≤ n) : d % (n+1) = (d+m) % (n+1) ↔ m = 0 := by
  have hd : d % (n+1) < n+1 := Nat.mod_lt _ (by omega)
  rw [Ring.add_mod_wrap d (by omega : m < n+1)]
  split <;> omega

theorem next_eq_iff (hm : m ≤ n) : ((d+m) % (n+1) + 1) % (n+1) = d % (n+1) ↔ m = n := by
  have hs : ((d+m) % (n+1) + 1) % (n+1) = (d + (m+1)) % (n+1) := by
    rw [Nat.mod_add_mod,Nat.add_assoc]
  rw [hs]
  constructor
  · intro he
    by_contra hne
    exact absurd ((index_eq_iff (by omega)).mp he.symm) (by omega)
  · rintro rfl
    exact Nat.add_mod_right d _

end Arithmetic

/-- The room for `c` more items, with `items` of them copied behind the tail. -/
def Copied (n : Nat) (q : State T) (c : Nat) (items : List T) : Prop :=
  q.accepted.length + c ≤ q.delivered.length + n ∧
    ∀ j x, items[j]? = some x → q.buffer ((q.accepted.length + j) % (n+1)) = x

def ProducerOk (n : Nat) (q : State T) : Producer T → Prop
  | .idle | .ret _ | .enqLoadTail _ | .batchLoadTail _ => True
  | .enqLoadHead _ t | .batchLoadHead _ t => t = q.tail
  | .enqWrite _ t => t = q.tail ∧ Copied n q 1 []
  | .enqStoreTail item t => t = q.tail ∧ Copied n q 1 [item]
  | .batchCopy items t i =>
      t = q.tail ∧ i ≤ items.length ∧ Copied n q items.length (items.take i)

def Fetched (q : State T) (count : Nat) (items : List T) : Prop :=
  items.length ≤ count ∧ q.delivered.length + count ≤ q.accepted.length ∧
    q.delivered ++ items <+: q.accepted

def ConsumerOk (q : State T) : Consumer T → Prop
  | .idle | .ret _ | .deqLoadHead | .batchLoadHead _ => True
  | .deqLoadTail h | .batchLoadTail _ h => h = q.head
  | .deqRead h => h = q.head ∧ Fetched q 1 []
  | .deqStoreHead h item => h = q.head ∧ Fetched q 1 [item]
  | .batchCopy maxCount h count items =>
      h = q.head ∧ Fetched q count items ∧ (0 < maxCount → 0 < count)

structure Inv (n : Nat) (q : State T) : Prop where
  cells : q.cells = n+1
  head : q.head = q.delivered.length % (n+1)
  tail : q.tail = q.accepted.length % (n+1)
  prefix_ : q.delivered <+: q.accepted
  room : q.accepted.length ≤ q.delivered.length + n
  stored : ∀ k x, q.delivered.length ≤ k → q.accepted[k]? = some x →
    q.buffer (k % (n+1)) = x
  producer : ProducerOk n q q.producer
  consumer : ConsumerOk q q.consumer

theorem create_inv [Inhabited T] (n : Nat) : Inv n (create n : State T) where
  cells := rfl
  head := by simp [create]
  tail := by simp [create]
  prefix_ := List.prefix_refl _
  room := Nat.zero_le _
  stored := by intro k x _ hx; simp [create] at hx
  producer := trivial
  consumer := trivial

section Steps
variable {n : Nat} {q q' : State T}

/-- The number of items stored is the distance of the two histories. -/
theorem Inv.count (h : Inv n q) :
    ∃ m, m ≤ n ∧ q.accepted.length = q.delivered.length + m := by
  have := h.prefix_.length_le
  have := h.room
  exact ⟨q.accepted.length - q.delivered.length,by omega,by omega⟩

theorem Inv.write (h : Inv n q) {j : Nat} (item : T)
    (hj : q.accepted.length + j < q.delivered.length + (n+1)) (k : Nat) (x : T)
    (hk : q.delivered.length ≤ k) (hx : q.accepted[k]? = some x) :
    (q.write ((q.accepted.length + j) % (n+1)) item).buffer (k % (n+1)) = x := by
  have hlt := (List.getElem?_eq_some_iff.mp hx).1
  have hne : k % (n+1) ≠ (q.accepted.length + j) % (n+1) := by
    intro he
    have := Ring.window_injective (a := q.delivered.length) ⟨hk,by omega⟩ ⟨by omega,hj⟩ he
    omega
  simp only [State.write]
  rw [Function.update_of_ne hne]
  exact h.stored k x hk hx

theorem Copied.write {c : Nat} {items : List T} {item : T} (h : Copied n q c items)
    (hlt : items.length < c) (hpre : q.delivered.length ≤ q.accepted.length) :
    Copied n (q.write ((q.accepted.length + items.length) % (n+1)) item) c (items ++ [item]) := by
  refine ⟨h.1,?_⟩
  intro j x hx
  have hroom := h.1
  have hj := (List.getElem?_eq_some_iff.mp hx).1
  simp only [List.length_append,List.length_cons,List.length_nil] at hj
  simp only [State.write]
  by_cases he : j = items.length
  · subst he
    rw [Function.update_self]
    simpa using hx
  · have hne : (q.accepted.length + j) % (n+1) ≠ (q.accepted.length + items.length) % (n+1) := by
      intro hs
      have := Ring.window_injective (a := q.delivered.length) ⟨by omega,by omega⟩
        ⟨by omega,by omega⟩ hs
      omega
    rw [Function.update_of_ne hne]
    rw [List.getElem?_append_left (by omega)] at hx
    exact h.2 j x hx

theorem Inv.storeTail {items : List T} (h : Inv n q) (hc : Copied n q items.length items) :
    Inv n (q.storeTail ((q.tail + items.length) % q.cells) items) where
  cells := h.cells
  head := h.head
  tail := by
    simp only [State.storeTail,List.length_append]
    rw [h.cells,h.tail,Nat.mod_add_mod]
  prefix_ := h.prefix_.trans (List.prefix_append _ _)
  room := by
    have := hc.1
    simp only [State.storeTail,List.length_append]
    omega
  stored := by
    intro k x hk hx
    simp only [State.storeTail] at hk hx ⊢
    by_cases hlt : k < q.accepted.length
    · rw [List.getElem?_append_left hlt] at hx
      exact h.stored k x hk hx
    · rw [List.getElem?_append_right (by omega)] at hx
      have := hc.2 _ x hx
      rwa [show q.accepted.length + (k - q.accepted.length) = k by omega] at this
  producer := trivial
  consumer := by
    have hf : ∀ {count its}, Fetched q count its →
        Fetched (q.storeTail ((q.tail + items.length) % q.cells) items) count its := by
      intro count its hf
      refine ⟨hf.1,?_,hf.2.2.trans (List.prefix_append _ _)⟩
      have := hf.2.1
      simp only [State.storeTail,List.length_append]
      omega
    have hq := h.consumer
    simp only [State.storeTail]
    cases hcons : q.consumer with
    | deqRead hd => rw [hcons] at hq; exact ⟨hq.1,hf hq.2⟩
    | deqStoreHead hd item => rw [hcons] at hq; exact ⟨hq.1,hf hq.2⟩
    | batchCopy mx hd count its => rw [hcons] at hq; exact ⟨hq.1,hf hq.2.1,hq.2.2⟩
    | _ => rw [hcons] at hq; exact hq

theorem Inv.storeHead {items : List T} (h : Inv n q) (hf : Fetched q items.length items) :
    Inv n (q.storeHead ((q.head + items.length) % q.cells) items) where
  cells := h.cells
  head := by
    simp only [State.storeHead,List.length_append]
    rw [h.cells,h.head,Nat.mod_add_mod]
  tail := h.tail
  prefix_ := hf.2.2
  room := by
    have := h.room
    simp only [State.storeHead,List.length_append]
    omega
  stored := by
    intro k x hk hx
    simp only [State.storeHead,List.length_append] at hk hx
    exact h.stored k x (by omega) hx
  producer := by
    have hc : ∀ {c its}, Copied n q c its →
        Copied n (q.storeHead ((q.head + items.length) % q.cells) items) c its := by
      intro c its hc
      refine ⟨?_,hc.2⟩
      have := hc.1
      simp only [State.storeHead,List.length_append]
      omega
    have hq := h.producer
    simp only [State.storeHead]
    cases hprod : q.producer with
    | enqWrite item t => rw [hprod] at hq; exact ⟨hq.1,hc hq.2⟩
    | enqStoreTail item t => rw [hprod] at hq; exact ⟨hq.1,hc hq.2⟩
    | batchCopy its t i => rw [hprod] at hq; exact ⟨hq.1,hq.2.1,hc hq.2.2⟩
    | _ => rw [hprod] at hq; exact hq
  consumer := trivial

end Steps
end Flashsale.SpscQueue
