import Flashsale.MpmcSteps
set_option autoImplicit false

namespace Flashsale.MpmcQueue
open SizeT Transition
variable {W T ι : Type} [SizeT W]

theorem create_isSome_iff [Inhabited T] {capacity : W} :
    (create capacity : Option (State W T ι)).isSome ↔
      2 ≤ val capacity ∧ (val capacity).isPowerOfTwo := by
  have hsub : 2 ≤ val capacity → val (capacity - 1) = val capacity - 1 := fun h2 => by
    have h1 : val (1 : W) = 1 := val_one (fits_mono (val_fits capacity) (by omega))
    rw [val_sub (by omega),h1]
  unfold create
  by_cases h2 : val capacity < 2
  · simp [h2]
  · have hle : 2 ≤ val capacity := by omega
    have hpow : val (capacity &&& (capacity - 1)) = 0 ↔ (val capacity).isPowerOfTwo := by
      rw [val_and,hsub hle,Nat.and_sub_one_eq_zero_iff_isPowerOfTwo (by omega)]
    by_cases hp : (val capacity).isPowerOfTwo <;> simp [h2,hle,hpow,hp]

theorem create_inv [Inhabited T] {capacity : W} {q : State W T ι}
    (h : create capacity = some q) : Inv (val capacity) q := by
  obtain ⟨h2,k,hk⟩ := create_isSome_iff.mp (Option.isSome_of_eq_some h)
  unfold create at h
  split at h
  · cases h
  · cases h
    have hfit : ∀ {m}, m ≤ val capacity → fits W m := fun hm =>
      fits_mono (val_fits capacity) hm
    have h1 : val (1 : W) = 1 := val_one (hfit (by omega))
    have hmask : val (capacity - 1) = val capacity - 1 := by
      rw [val_sub (by omega),h1]
    have h0 : val (ofNat 0 : W) = 0 := val_ofNat (hfit (by omega))
    refine ⟨⟨k,hk⟩,h2,?_,h0,h0,Nat.le_refl _,Nat.zero_le _,?_,?_,fun _ => trivial,?_⟩
    · change val (capacity - 1) + 1 = _
      omega
    · intro t _ ht; exact absurd ht (Nat.not_lt_zero t)
    · intro t _ (ht : t < 0 + val capacity)
      left
      have hm : t % val capacity = t := Nat.mod_eq_of_lt (by omega)
      simp only [State.seqAt,hm]
      exact val_ofNat (hfit (by omega))
    · intro t c d ht; simp at ht

section Results
variable {n : Nat} {q : State W T ι} {c : ι} {pos : W} {data : T}

theorem Inv.dequeue_matched (h : Inv n q)
    (hc : q.pc c = .deqReturn (some (pos,data))) : ∃ p, (q.pc p).enqueued = some (pos,data) := by
  obtain ⟨-,p,hp⟩ : q.takers[val pos]? = some c ∧
      ∃ p, q.tickets[val pos]? = some (p,data) := by simpa [PcOk,hc] using h.pcs c
  obtain ⟨pos',hw,he⟩ := h.winner _ p data hp
  exact ⟨p,by rw [hw,val_injective he]⟩

theorem Inv.recorded_enqueue (h : Inv n q) (hc : (q.pc c).enqueued = some (pos,data)) :
    q.tickets[val pos]? = some (c,data) := by
  have hok := h.pcs c
  cases hp : q.pc c with
  | enqWrite d p =>
    rw [hp] at hc hok
    cases hc
    exact hok.1
  | enqStoreSeq d p =>
    rw [hp] at hc hok
    cases hc
    exact hok.1.1
  | enqReturn d won =>
    rw [hp] at hc hok
    cases won with
    | none => cases hc
    | some p => cases hc; exact hok
  | _ => simp [hp,Pc.enqueued] at hc

theorem Inv.recorded_dequeue (h : Inv n q) (hc : (q.pc c).dequeued = some pos) :
    q.takers[val pos]? = some c := by
  have hok := h.pcs c
  cases hp : q.pc c with
  | deqRead p | deqStoreSeq p d =>
    rw [hp] at hc hok
    cases hc
    exact hok.1.1
  | deqReturn won =>
    rw [hp] at hc hok
    cases won with
    | none => cases hc
    | some x => cases hc; exact hok.1
  | _ => simp [hp,Pc.dequeued] at hc

theorem Inv.refused (h : Inv n q) (hc : q.pc c = .enqReturn data none) :
    ∀ e ∈ q.tickets, e.1 ≠ c := by
  intro ⟨c',d⟩ he hcc
  obtain rfl : c' = c := hcc
  obtain ⟨t,ht⟩ := List.mem_iff_getElem?.mp he
  obtain ⟨pos,hw,-⟩ := h.winner t _ d ht
  simp [hc,Pc.enqueued] at hw

/-- Call `c` is between its successful compare-exchange and its sequence store on
cell `i`. -/
def State.owns (q : State W T ι) (c : ι) (i : Nat) : Prop :=
  match q.pc c with
  | .enqWrite _ pos | .enqStoreSeq _ pos | .deqRead pos | .deqStoreSeq pos _ => q.slot pos = i
  | _ => False

theorem Inv.owns_cases {i : Nat} (h : Inv n q) (ho : q.owns c i) :
    ∃ t, t % n = i ∧ ((∃ data, Producing n q c data t) ∨ Consuming n q c t) := by
  have hok := h.pcs c
  unfold State.owns at ho
  cases hp : q.pc c with
  | enqWrite d p =>
    rw [hp] at ho hok
    exact ⟨val p,by rw [← h.slot]; exact ho,.inl ⟨d,hok⟩⟩
  | enqStoreSeq d p =>
    rw [hp] at ho hok
    exact ⟨val p,by rw [← h.slot]; exact ho,.inl ⟨d,hok.1⟩⟩
  | deqRead p | deqStoreSeq p d =>
    rw [hp] at ho hok
    exact ⟨val p,by rw [← h.slot]; exact ho,.inr hok.1⟩
  | _ => rw [hp] at ho; exact ho.elim

theorem Inv.owner_unique {c' : ι} {i : Nat} (h : Inv n q) (ho : q.owns c i)
    (ho' : q.owns c' i) : c = c' := by
  obtain ⟨t,ht,hown⟩ := h.owns_cases ho
  obtain ⟨u,hu,hown'⟩ := h.owns_cases ho'
  have he : t % n = u % n := ht.trans hu.symm
  rcases hown with ⟨d,hp⟩ | hc <;> rcases hown' with ⟨d',hp'⟩ | hc'
  · exact hp.slot_injective h hp' he
  · exact (hp.slot_ne_consuming h hc' he).elim
  · exact (hp'.slot_ne_consuming h hc he.symm).elim
  · exact hc.slot_injective h hc' he

end Results

variable [DecidableEq W] [DecidableEq ι]

theorem State.next_tickets {q q' : State W T ι} {a : Act T ι} (h : q.next a = some q') :
    q.tickets <+: q'.tickets := by
  cases a with
  | enqueue c data | dequeue c =>
    simp only [State.next,State.call] at h
    split at h <;> cases h
    exact List.prefix_refl _
  | step c spurious =>
    simp only [State.next,State.step] at h
    split at h <;> try cases h
    all_goals first | exact List.prefix_refl _ | skip
    all_goals split at h <;> cases h
    all_goals first | exact List.prefix_refl _ | exact List.prefix_append _ _

section Reachable
variable [Inhabited T] {capacity : W} {q : State W T ι}

/-- The invariant of every reachable state, as long as the counters and one more
round of the ring are values of the word. -/
theorem reachable_inv (h : (system capacity).Reachable q)
    (hf : fits W (q.tickets.length + val capacity)) : Inv (val capacity) q := by
  revert hf
  refine h.invariant (I := fun q => fits W (q.tickets.length + val capacity) → _)
    (fun s hs _ => create_inv hs) ?_
  intro s a t ih hn hf
  have hlen := (State.next_tickets hn).length_le
  have hs := fits_mono hf (Nat.add_le_add_right hlen _)
  exact (ih hs).next hs hn

theorem init_create (h : (create capacity : Option (State W T ι)).isSome) :
    (system capacity).init ((create capacity).get h) := (Option.some_get h).symm

theorem reachable_pow (h : (system capacity).Reachable q) : ∃ k, val capacity = 2^k := by
  obtain ⟨_,_,hi,_⟩ := h
  exact (create_inv hi).pow

end Reachable

section Words
variable [Inhabited T] {capacity : BitVec 64} {q : State (BitVec 64) T ι}

theorem reachable_round (h : (system capacity).Reachable q) : capacity.toNat ∣ 2^63 := by
  obtain ⟨k,hk⟩ := reachable_pow h
  have hcap : capacity.toNat = 2^k := hk
  have hlt : 2^k < 2^64 := hcap ▸ capacity.isLt
  have hk64 : k < 64 := (Nat.pow_lt_pow_iff_right (by decide)).mp hlt
  exact hcap ▸ Nat.pow_dvd_pow 2 (by omega)

/-- With fewer than `2^63` tickets neither the counters nor a sequence number one
round ahead leave the 64-bit word, whatever the capacity. -/
theorem reachable_inv_64 (h : (system capacity).Reachable q) (ht : q.tickets.length < 2^63) :
    Inv capacity.toNat q := by
  have hle : capacity.toNat ≤ 2^63 := Nat.le_of_dvd (by decide) (reachable_round h)
  exact reachable_inv h (show q.tickets.length + capacity.toNat < 2^64 by omega)

/-- No loss, no duplication, no mixing. -/
theorem tickets_matched (h : (system capacity).Reachable q) (ht : q.tickets.length < 2^63) :
    (∀ c pos data, q.pc c = .deqReturn (some (pos,data)) →
      ∃ p, (q.pc p).enqueued = some (pos,data)) ∧
    (∀ p p' pos data data', (q.pc p).enqueued = some (pos,data) →
      (q.pc p').enqueued = some (pos,data') → p = p') ∧
    (∀ c c' pos, (q.pc c).dequeued = some pos → (q.pc c').dequeued = some pos → c = c') ∧
    (∀ c data, q.pc c = .enqReturn data none → ∀ e ∈ q.tickets, e.1 ≠ c) ∧
    q.dequeuePos.toNat ≤ q.enqueuePos.toNat ∧
    q.enqueuePos.toNat ≤ q.dequeuePos.toNat + capacity.toNat := by
  have hinv := reachable_inv_64 h ht
  have hE : q.enqueuePos.toNat = q.tickets.length := hinv.enqueuePos
  have hD : q.dequeuePos.toNat = q.takers.length := hinv.dequeuePos
  refine ⟨fun c pos data hc => hinv.dequeue_matched hc,?_,?_,
    fun c data hc => hinv.refused hc,?_,?_⟩
  · intro p p' pos data data' hp hp'
    have hx := (hinv.recorded_enqueue hp).symm.trans (hinv.recorded_enqueue hp')
    simp only [Option.some.injEq,Prod.mk.injEq] at hx
    exact hx.1
  · intro c c' pos hc hc'
    exact Option.some.inj ((hinv.recorded_dequeue hc).symm.trans (hinv.recorded_dequeue hc'))
  · rw [hE,hD]; exact hinv.order
  · rw [hE,hD]; exact hinv.room

/-- Exclusive access to a cell: the producer about to write `cell->data` is the
only call about to touch the data of that cell. -/
theorem cells_exclusive (h : (system capacity).Reachable q) (ht : q.tickets.length < 2^63) :
    (∀ c c' i, q.owns c i → q.owns c' i → c = c') ∧
    ∀ c c' pos pos' data, q.pc c = .enqWrite data pos → c' ≠ c →
      (∃ data', q.pc c' = .enqWrite data' pos') ∨ q.pc c' = .deqRead pos' →
      q.slot pos' ≠ q.slot pos := by
  have hinv := reachable_inv_64 h ht
  refine ⟨fun c c' i ho ho' => hinv.owner_unique ho ho',?_⟩
  intro c c' pos pos' data hc hne hc' he
  have ho : q.owns c (q.slot pos) := by simp [State.owns,hc]
  have ho' : q.owns c' (q.slot pos) := by
    rcases hc' with ⟨data',hc'⟩ | hc' <;> simp [State.owns,hc',he]
  exact hne (hinv.owner_unique ho' ho)

end Words

def pairRun : List (Act Nat Nat) :=
  .enqueue 0 7 :: List.replicate 5 (.step 0 false) ++
    .dequeue 1 :: List.replicate 5 (.step 1 false)

theorem tickets_matched_pair : ∃ q : State (BitVec 64) Nat Nat,
    q.pc 1 = .deqReturn (some (0#64,7)) ∧ ∃ p, (q.pc p).enqueued = some (0#64,7) :=
  ⟨((system 2#64).exec ((create 2#64).get (by decide)) pairRun).get (by decide),rfl,
    (tickets_matched (.exec (init_create (by decide)) (by decide)) (by decide)).1 1 _ _ rfl⟩

def writersRun : List (Act Nat Nat) :=
  .enqueue 0 7 :: List.replicate 3 (.step 0 false) ++
    .enqueue 1 8 :: List.replicate 3 (.step 1 false)

theorem cells_exclusive_writers : ∃ q : State (BitVec 64) Nat Nat,
    q.pc 0 = .enqWrite 7 0#64 ∧ q.pc 1 = .enqWrite 8 1#64 ∧ q.slot 1#64 ≠ q.slot 0#64 :=
  ⟨((system 2#64).exec ((create 2#64).get (by decide)) writersRun).get (by decide),rfl,rfl,
    (cells_exclusive (.exec (init_create (by decide)) (by decide)) (by decide)).2 0 1 _ _ 7 rfl (by decide)
      (.inl ⟨8,rfl⟩)⟩

end Flashsale.MpmcQueue
