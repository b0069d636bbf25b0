import Flashsale.MpmcQueue
set_option autoImplicit false

/-!
The invariant of the queue. Of the `n` tickets from the dequeue counter on,
those below the enqueue counter are being written or are published, the others
are free or are still being read by the dequeuer of one round before; a call
past its compare-exchange holds one of these tickets.
-/

namespace Flashsale.MpmcQueue
open SizeT
variable {W T ι : Type} [SizeT W]

def State.seqAt (q : State W T ι) (n t : Nat) : Nat := val (q.buffer (t % n)).sequence

def State.dataAt (q : State W T ι) (n t : Nat) : T := (q.buffer (t % n)).data

/-- Call `c` holds enqueue ticket `t`, not published yet. -/
def Producing (n : Nat) (q : State W T ι) (c : ι) (data : T) (t : Nat) : Prop :=
  q.tickets[t]? = some (c,data) ∧ q.takers.length ≤ t ∧ q.seqAt n t = t

/-- Call `c` holds dequeue ticket `t`, not released yet. -/
def Consuming (n : Nat) (q : State W T ι) (c : ι) (t : Nat) : Prop :=
  q.takers[t]? = some c ∧ q.tickets.length ≤ t + n ∧ q.seqAt n t = t + 1

/-- What a call's local variables say about the queue at each program point. -/
def PcOk (n : Nat) (q : State W T ι) (c : ι) : Pc W T → Prop
  | .idle | .enqLoadPos _ | .enqReturn _ none | .deqLoadPos | .deqReturn none => True
  | .enqLoadSeq _ pos => val pos ≤ q.tickets.length
  | .enqCas _ pos => val pos ≤ q.tickets.length ∧ (val pos = q.tickets.length →
      val pos < q.takers.length + n ∧ q.seqAt n (val pos) = val pos)
  | .enqWrite data pos => Producing n q c data (val pos)
  | .enqStoreSeq data pos =>
      Producing n q c data (val pos) ∧ q.dataAt n (val pos) = data
  | .enqReturn data (some pos) => q.tickets[val pos]? = some (c,data)
  | .deqLoadSeq pos => val pos ≤ q.takers.length
  | .deqCas pos => val pos ≤ q.takers.length ∧ (val pos = q.takers.length →
      val pos < q.tickets.length ∧ q.seqAt n (val pos) = val pos + 1)
  | .deqRead pos =>
      Consuming n q c (val pos) ∧ ∃ p, q.tickets[val pos]? = some (p,q.dataAt n (val pos))
  | .deqStoreSeq pos data =>
      Consuming n q c (val pos) ∧ ∃ p, q.tickets[val pos]? = some (p,data)
  | .deqReturn (some (pos,data)) =>
      q.takers[val pos]? = some c ∧ ∃ p, q.tickets[val pos]? = some (p,data)

structure Inv (n : Nat) (q : State W T ι) : Prop where
  pow : ∃ k, n = 2^k
  two_le : 2 ≤ n
  mask : val q.mask + 1 = n
  enqueuePos : val q.enqueuePos = q.tickets.length
  dequeuePos : val q.dequeuePos = q.takers.length
  order : q.takers.length ≤ q.tickets.length
  room : q.tickets.length ≤ q.takers.length + n
  stored : ∀ t, q.takers.length ≤ t → t < q.tickets.length →
    q.seqAt n t = t ∨ q.seqAt n t = t + 1 ∧ ∃ p, q.tickets[t]? = some (p,q.dataAt n t)
  free : ∀ t, q.tickets.length ≤ t → t < q.takers.length + n →
    q.seqAt n t = t ∨ q.seqAt n t + n = t + 1
  pcs : ∀ c, PcOk n q c (q.pc c)
  winner : ∀ t c data, q.tickets[t]? = some (c,data) →
    ∃ pos, (q.pc c).enqueued = some (pos,data) ∧ val pos = t

section Cells
variable {n : Nat} {q : State W T ι}

theorem Inv.slot (h : Inv n q) (pos : W) : q.slot pos = val pos % n := by
  obtain ⟨k,rfl⟩ := h.pow
  exact val_and_mask h.mask

theorem Inv.seqAt_storeSeq (h : Inv n q) (pos seq : W) (t : Nat) :
    (q.storeSeq pos seq).seqAt n t =
      if t % n = val pos % n then val seq else q.seqAt n t := by
  unfold State.seqAt State.storeSeq
  rw [h.slot]
  by_cases he : t % n = val pos % n <;> simp [he]

theorem Inv.dataAt_storeSeq (h : Inv n q) (pos seq : W) (t : Nat) :
    (q.storeSeq pos seq).dataAt n t = q.dataAt n t := by
  unfold State.dataAt State.storeSeq
  rw [h.slot]
  by_cases he : t % n = val pos % n <;> simp [he]

theorem Inv.seqAt_writeData (h : Inv n q) (pos : W) (data : T) (t : Nat) :
    (q.writeData pos data).seqAt n t = q.seqAt n t := by
  unfold State.seqAt State.writeData
  rw [h.slot]
  by_cases he : t % n = val pos % n <;> simp [he]

theorem Inv.dataAt_writeData (h : Inv n q) (pos : W) (data : T) (t : Nat) :
    (q.writeData pos data).dataAt n t =
      if t % n = val pos % n then data else q.dataAt n t := by
  unfold State.dataAt State.writeData
  rw [h.slot]
  by_cases he : t % n = val pos % n <;> simp [he]

theorem Inv.sequence (h : Inv n q) (pos : W) :
    val (q.buffer (q.slot pos)).sequence = q.seqAt n (val pos) := by
  rw [h.slot]; rfl

theorem Inv.data (h : Inv n q) (pos : W) :
    (q.buffer (q.slot pos)).data = q.dataAt n (val pos) := by
  rw [h.slot]; rfl

end Cells

section Tickets
variable {n : Nat} {q : State W T ι} {c c' : ι} {data data' : T} {t u : Nat}

theorem Producing.lt (hp : Producing n q c data t) : t < q.tickets.length :=
  (List.getElem?_eq_some_iff.mp hp.1).1

theorem Consuming.lt (hc : Consuming n q c t) : t < q.takers.length :=
  (List.getElem?_eq_some_iff.mp hc.1).1

theorem Producing.window (h : Inv n q) (hp : Producing n q c data t) :
    q.takers.length ≤ t ∧ t < q.takers.length + n := by
  have := hp.lt; have := h.room; exact ⟨hp.2.1,by omega⟩

/-- A dequeuer that has not released its slot holds the slot of the ticket one
round later, which is still free. -/
theorem Consuming.window (hc : Consuming n q c t) (h : Inv n q) :
    q.takers.length ≤ t + n ∧ t + n < q.takers.length + n := by
  have := hc.lt; have := hc.2.1; have := h.order; exact ⟨by omega,by omega⟩

theorem Producing.slot_injective (h : Inv n q) (hp : Producing n q c data t)
    (hp' : Producing n q c' data' u) (he : t % n = u % n) : c = c' := by
  have htu := Ring.window_injective (hp.window h) (hp'.window h) he
  subst htu
  have := hp.1.symm.trans hp'.1
  simp_all

theorem Consuming.slot_injective (h : Inv n q) (hc : Consuming n q c t)
    (hc' : Consuming n q c' u) (he : t % n = u % n) : c = c' := by
  have htu : t + n = u + n := Ring.window_injective (hc.window h) (hc'.window h) (by simpa using he)
  obtain rfl : t = u := by omega
  exact Option.some.inj (hc.1.symm.trans hc'.1)

theorem Producing.slot_ne_consuming (h : Inv n q) (hp : Producing n q c data t)
    (hc : Consuming n q c' u) : t % n ≠ u % n := by
  intro he
  have htu : t = u + n := Ring.window_injective (hp.window h) (hc.window h) (by simpa using he)
  have := hp.lt; have := hc.2.1; omega

end Tickets

theorem pcOk_goto [DecidableEq ι] {n : Nat} {q : State W T ι} {c c' : ι} {p x : Pc W T} :
    PcOk n (q.goto c p) c' x ↔ PcOk n q c' x := Iff.rfl

theorem Inv.goto [DecidableEq ι] {n : Nat} {q : State W T ι} {c : ι} {p : Pc W T}
    (h : Inv n q) (hp : PcOk n q c p) (he : (q.pc c).enqueued = none) : Inv n (q.goto c p) := by
  refine { h with pcs := ?_, winner := ?_ }
  · intro c'
    rw [pcOk_goto]
    by_cases hc : c' = c
    · subst hc; rw [State.goto_pc_self]; exact hp
    · rw [State.goto_pc_of_ne hc]; exact h.pcs c'
  · intro t c' data ht
    obtain ⟨pos,hw,hpos⟩ := h.winner t c' data ht
    have hc : c' ≠ c := by rintro rfl; simp [he] at hw
    exact ⟨pos,by simpa [State.goto,hc] using hw,hpos⟩

section Steps
variable {n : Nat} {q : State W T ι} {c : ι} {data : T} {pos : W}

theorem seqAt_zero_iff (h : Inv n q) (pos' : W) :
    dif (q.buffer (q.slot pos)).sequence pos' = 0 ↔ q.seqAt n (val pos) = val pos' := by
  rw [dif_eq_zero,← h.sequence]
  exact ⟨fun he => by rw [he],fun he => val_injective he⟩

theorem Inv.free_of_seqAt (h : Inv n q) (he : q.seqAt n q.tickets.length = q.tickets.length) :
    q.tickets.length < q.takers.length + n := by
  have hr := h.room
  have h2 := h.two_le
  by_contra hfull
  have hE : q.tickets.length = q.takers.length + n := by omega
  have hs : q.seqAt n q.tickets.length = q.seqAt n q.takers.length := by
    simp [State.seqAt,hE]
  rcases h.stored q.takers.length (Nat.le_refl _) (by omega) with h1 | ⟨h1,-⟩ <;> omega

theorem Inv.stored_of_seqAt (h : Inv n q)
    (he : q.seqAt n q.takers.length = q.takers.length + 1) :
    q.takers.length < q.tickets.length := by
  have ho := h.order
  have h2 := h.two_le
  by_contra hempty
  rcases h.free q.takers.length (by omega) (by omega) with h1 | h1 <;> omega

theorem PcOk.winEnqueue {c' : ι} {p : Pc W T} (h : Inv n q) (hpos : val pos = q.tickets.length)
    (hseq : q.seqAt n (val pos) = val pos) (hp : PcOk n q c' p) :
    PcOk n (q.winEnqueue c data pos) c' p := by
  have h2 := h.two_le
  have hget : ∀ {t : Nat} {x}, q.tickets[t]? = some x →
      (q.tickets ++ [(c,data)])[t]? = some x := fun {t x} hx => by
    rw [List.getElem?_append_left (List.getElem?_eq_some_iff.mp hx).1]; exact hx
  -- the slot of a dequeuer that still reads is not free, so it is not the ticket just won
  have hcons : ∀ {t}, Consuming n q c' t → Consuming n (q.winEnqueue c data pos) c' t := by
    intro t hc
    refine ⟨hc.1,?_,hc.2.2⟩
    have hne : q.tickets.length ≠ t + n := by
      intro he
      have hs : q.seqAt n (val pos) = q.seqAt n t := by simp [State.seqAt,hpos,he]
      have := hc.2.2
      omega
    have := hc.2.1
    simp only [State.winEnqueue,List.length_append,List.length_cons,List.length_nil]
    omega
  cases p with
  | idle => trivial
  | enqLoadPos d => trivial
  | enqLoadSeq d p => simp only [PcOk,State.winEnqueue,List.length_append] at hp ⊢; omega
  | enqCas d p =>
    refine ⟨?_,fun he => ?_⟩
    · have := hp.1; simp only [State.winEnqueue,List.length_append]; omega
    · have := hp.1; simp [State.winEnqueue] at he; omega
  | enqWrite d p => exact ⟨hget hp.1,hp.2⟩
  | enqStoreSeq d p => exact ⟨⟨hget hp.1.1,hp.1.2⟩,hp.2⟩
  | enqReturn d won =>
    cases won with
    | none => trivial
    | some p => exact hget hp
  | deqLoadPos => trivial
  | deqLoadSeq p => exact hp
  | deqCas p =>
    refine ⟨hp.1,fun he => ⟨?_,(hp.2 he).2⟩⟩
    have := (hp.2 he).1
    simp only [State.winEnqueue,List.length_append]; omega
  | deqRead p => exact ⟨hcons hp.1,hp.2.imp fun _ => hget⟩
  | deqStoreSeq p d => exact ⟨hcons hp.1,hp.2.imp fun _ => hget⟩
  | deqReturn won =>
    cases won with
    | none => trivial
    | some x => exact ⟨hp.1,hp.2.imp fun _ => hget⟩

theorem PcOk.winDequeue {c' : ι} {p : Pc W T} (hpos : val pos = q.takers.length)
    (hseq : q.seqAt n (val pos) = val pos + 1) (hp : PcOk n q c' p) :
    PcOk n (q.winDequeue c pos) c' p := by
  have hget : ∀ {t : Nat} {x}, q.takers[t]? = some x → (q.takers ++ [c])[t]? = some x :=
    fun {t x} hx => by
      rw [List.getElem?_append_left (List.getElem?_eq_some_iff.mp hx).1]; exact hx
  have hprod : ∀ {d t}, Producing n q c' d t → Producing n (q.winDequeue c pos) c' d t := by
    intro d t hq
    refine ⟨hq.1,?_,hq.2.2⟩
    have hne : t ≠ q.takers.length := by
      rintro rfl
      have := hq.2.2
      rw [hpos] at hseq
      omega
    have := hq.2.1
    simp only [State.winDequeue,List.length_append,List.length_cons,List.length_nil]
    omega
  cases p with
  | idle => trivial
  | enqLoadPos d => trivial
  | enqLoadSeq d p => exact hp
  | enqCas d p =>
    refine ⟨hp.1,fun he => ⟨?_,(hp.2 he).2⟩⟩
    have := (hp.2 he).1
    simp only [State.winDequeue,List.length_append]; omega
  | enqWrite d p => exact hprod hp
  | enqStoreSeq d p => exact ⟨hprod hp.1,hp.2⟩
  | enqReturn d won => cases won <;> exact hp
  | deqLoadPos => trivial
  | deqLoadSeq p => simp only [PcOk,State.winDequeue,List.length_append] at hp ⊢; omega
  | deqCas p =>
    refine ⟨?_,fun he => ?_⟩
    · have := hp.1; simp only [State.winDequeue,List.length_append]; omega
    · have := hp.1; simp [State.winDequeue] at he; omega
  | deqRead p => exact ⟨⟨hget hp.1.1,hp.1.2⟩,hp.2⟩
  | deqStoreSeq p d => exact ⟨⟨hget hp.1.1,hp.1.2⟩,hp.2⟩
  | deqReturn won =>
    cases won with
    | none => trivial
    | some x => exact ⟨hget hp.1,hp.2⟩

/-- Nothing that call `c'` or the two counters rely on is in the slot of ticket `u`. -/
structure Apart (n : Nat) (q : State W T ι) (c' : ι) (u : Nat) : Prop where
  producing : ∀ d t, Producing n q c' d t → t % n ≠ u % n
  consuming : ∀ t, Consuming n q c' t → t % n ≠ u % n
  enqueue : q.tickets.length < q.takers.length + n →
    q.seqAt n q.tickets.length = q.tickets.length → q.tickets.length % n ≠ u % n
  dequeue : q.takers.length < q.tickets.length →
    q.seqAt n q.takers.length = q.takers.length + 1 → q.takers.length % n ≠ u % n

theorem Producing.apart {c' : ι} {u : Nat} (h : Inv n q) (hp : Producing n q c data u)
    (hc : c' ≠ c) : Apart n q c' u where
  producing _ _ ht he := hc (ht.slot_injective h hp he)
  consuming _ ht he := hp.slot_ne_consuming h ht he.symm
  enqueue hlt _ he := by
    have hD := h.order
    have := Ring.window_injective ⟨hD,hlt⟩ (hp.window h) he
    have := hp.lt
    omega
  dequeue _ hs he := by
    have h2 := h.two_le
    have hD := Ring.window_injective ⟨Nat.le_refl _,by omega⟩ (hp.window h) he
    have := hp.2.2
    rw [← hD] at this
    omega

theorem Consuming.apart {c' : ι} {u : Nat} (h : Inv n q) (hu : Consuming n q c u)
    (hc : c' ≠ c) : Apart n q c' u where
  producing _ _ ht := ht.slot_ne_consuming h hu
  consuming _ ht he := hc (ht.slot_injective h hu he)
  enqueue hlt hs he := by
    have h2 := h.two_le
    have hD := h.order
    have hE : q.tickets.length = u + n :=
      Ring.window_injective ⟨hD,hlt⟩ (hu.window h) (by simpa using he)
    have hsu : q.seqAt n q.tickets.length = q.seqAt n u := by simp [State.seqAt,hE]
    have := hu.2.2
    omega
  dequeue hlt _ he := by
    have h2 := h.two_le
    have hD : q.takers.length = u + n :=
      Ring.window_injective ⟨Nat.le_refl _,by omega⟩ (hu.window h) (by simpa using he)
    have := hu.2.1
    omega

theorem PcOk.frame {q' : State W T ι} {c' : ι} {u : Nat} {p : Pc W T} (ha : Apart n q c' u)
    (ht : q'.tickets = q.tickets) (hd : q'.takers = q.takers)
    (hs : ∀ t, t % n ≠ u % n → q'.seqAt n t = q.seqAt n t)
    (hdata : ∀ t, t % n ≠ u % n → q'.dataAt n t = q.dataAt n t)
    (hp : PcOk n q c' p) : PcOk n q' c' p := by
  have hprod : ∀ {d t}, Producing n q c' d t → Producing n q' c' d t := fun hq => by
    rw [Producing,ht,hd,hs _ (ha.producing _ _ hq)]; exact hq
  have hcons : ∀ {t}, Consuming n q c' t → Consuming n q' c' t := fun hq => by
    rw [Consuming,ht,hd,hs _ (ha.consuming _ hq)]; exact hq
  cases p with
  | idle => trivial
  | enqLoadPos d => trivial
  | enqLoadSeq d p => rw [PcOk,ht]; exact hp
  | enqCas d p =>
    refine ⟨by rw [ht]; exact hp.1,fun he => ?_⟩
    rw [ht] at he
    obtain ⟨hlt,hseq⟩ := hp.2 he
    rw [he] at hlt hseq ⊢
    rw [hd,hs _ (ha.enqueue hlt hseq)]
    exact ⟨hlt,hseq⟩
  | enqWrite d p => exact hprod hp
  | enqStoreSeq d p => exact ⟨hprod hp.1,by rw [hdata _ (ha.producing _ _ hp.1)]; exact hp.2⟩
  | enqReturn d won =>
    cases won with
    | none => trivial
    | some p => rw [PcOk,ht]; exact hp
  | deqLoadPos => trivial
  | deqLoadSeq p => rw [PcOk,hd]; exact hp
  | deqCas p =>
    refine ⟨by rw [hd]; exact hp.1,fun he => ?_⟩
    rw [hd] at he
    obtain ⟨hlt,hseq⟩ := hp.2 he
    rw [he] at hlt hseq ⊢
    rw [ht,hs _ (ha.dequeue hlt hseq)]
    exact ⟨hlt,hseq⟩
  | deqRead p =>
    exact ⟨hcons hp.1,by rw [ht,hdata _ (ha.consuming _ hp.1)]; exact hp.2⟩
  | deqStoreSeq p d => exact ⟨hcons hp.1,by rw [ht]; exact hp.2⟩
  | deqReturn won =>
    cases won with
    | none => trivial
    | some x => exact ⟨by rw [hd]; exact hp.1,by rw [ht]; exact hp.2⟩

end Steps
end Flashsale.MpmcQueue
