import Flashsale.MpmcInvariant
set_option autoImplicit false

namespace Flashsale.MpmcQueue
open SizeT
variable {W T ι : Type} [SizeT W] [DecidableEq ι]

section Steps
variable {n : Nat} {q : State W T ι} {c : ι} {data : T} {pos : W}

theorem Inv.winEnqueue (h : Inv n q) (hf : fits W (q.tickets.length + n))
    (hc : q.pc c = .enqCas data pos) (hpos : q.enqueuePos = pos) :
    Inv n ((q.winEnqueue c data pos).goto c (.enqWrite data pos)) := by
  have hok : PcOk n q c (.enqCas data pos) := hc ▸ h.pcs c
  have hE : val pos = q.tickets.length := by rw [← hpos]; exact h.enqueuePos
  obtain ⟨hlt,hseq⟩ := hok.2 hE
  have h2 := h.two_le
  have hD := h.order
  have hnew : (q.tickets ++ [(c,data)])[val pos]? = some (c,data) := by simp [hE]
  have hlen : (q.winEnqueue c data pos).tickets.length = q.tickets.length + 1 := by
    simp [State.winEnqueue]
  have hold : ∀ {t : Nat}, t < q.tickets.length →
      (q.winEnqueue c data pos).tickets[t]? = q.tickets[t]? := fun ht =>
    List.getElem?_append_left ht
  refine ⟨h.pow,h2,h.mask,?_,h.dequeuePos,?_,?_,?_,?_,?_,?_⟩
  · have : val (pos + 1) = val pos + 1 := val_succ (fits_mono hf (by omega))
    simp only [State.goto,State.winEnqueue,List.length_append,List.length_cons,List.length_nil]
    omega
  · simp only [State.goto]; rw [hlen]; exact Nat.le_succ_of_le hD
  · simp only [State.goto]; rw [hlen]; exact (by omega : q.tickets.length + 1 ≤ q.takers.length + n)
  · intro t ht hlt'
    simp only [State.goto] at ht hlt' ⊢
    rw [hlen] at hlt'
    by_cases he : t = q.tickets.length
    · subst he; left; rw [← hE]; exact hseq
    · rw [hold (by omega)]
      exact h.stored t ht (by omega)
  · intro t ht hlt'
    simp only [State.goto] at ht hlt'
    rw [hlen] at ht
    exact h.free t (by omega) hlt'
  · intro c'
    rw [pcOk_goto]
    by_cases he : c' = c
    · subst he
      have hcell : (q.winEnqueue c' data pos).seqAt n (val pos) = val pos := hseq
      rw [State.goto_pc_self]
      exact ⟨hnew,by rw [hE]; exact hD,hcell⟩
    · rw [State.goto_pc_of_ne he]
      exact (h.pcs c').winEnqueue h hE hseq
  · intro t c' d ht
    simp only [State.goto] at ht
    by_cases he : t < q.tickets.length
    · rw [hold he] at ht
      obtain ⟨pos',hw,hp⟩ := h.winner t c' d ht
      have hne : c' ≠ c := by rintro rfl; rw [hc] at hw; simp [Pc.enqueued] at hw
      exact ⟨pos',by simpa [State.goto,hne,State.winEnqueue] using hw,hp⟩
    · have htl := (List.getElem?_eq_some_iff.mp ht).1
      rw [hlen] at htl
      obtain rfl : t = val pos := by omega
      have hx := hnew.symm.trans ht
      simp only [Option.some.injEq,Prod.mk.injEq] at hx
      obtain ⟨rfl,rfl⟩ := hx
      exact ⟨pos,by simp [State.goto,Pc.enqueued],rfl⟩

theorem Inv.winDequeue (h : Inv n q) (hf : fits W (q.tickets.length + n))
    (hc : q.pc c = .deqCas pos) (hpos : q.dequeuePos = pos) :
    Inv n ((q.winDequeue c pos).goto c (.deqRead pos)) := by
  have hok : PcOk n q c (.deqCas pos) := hc ▸ h.pcs c
  have hD : val pos = q.takers.length := by rw [← hpos]; exact h.dequeuePos
  obtain ⟨hlt,hseq⟩ := hok.2 hD
  have h2 := h.two_le
  have hr := h.room
  have hlen : (q.winDequeue c pos).takers.length = q.takers.length + 1 := by
    simp [State.winDequeue]
  refine ⟨h.pow,h2,h.mask,h.enqueuePos,?_,?_,?_,?_,?_,?_,?_⟩
  · have : val (pos + 1) = val pos + 1 := val_succ (fits_mono hf (by omega))
    simp only [State.goto,State.winDequeue,List.length_append,List.length_cons,List.length_nil]
    omega
  · simp only [State.goto]; rw [hlen]; exact (by omega : q.takers.length + 1 ≤ q.tickets.length)
  · simp only [State.goto]; rw [hlen]
    exact (by omega : q.tickets.length ≤ q.takers.length + 1 + n)
  · intro t ht hlt'
    simp only [State.goto] at ht
    rw [hlen] at ht
    exact h.stored t (by omega) hlt'
  · intro t ht hlt'
    simp only [State.goto] at hlt'
    rw [hlen] at hlt'
    by_cases he : t = q.takers.length + n
    · -- the slot freed next still holds the ticket just won
      right
      have hs : q.seqAt n t = q.seqAt n (val pos) := by simp [State.seqAt,he,hD]
      exact (by omega : q.seqAt n t + n = t + 1)
    · exact h.free t ht (by omega)
  · intro c'
    rw [pcOk_goto]
    by_cases he : c' = c
    · subst he
      have hnew : (q.takers ++ [c'])[val pos]? = some c' := by simp [hD]
      have hcell : (q.winDequeue c' pos).seqAt n (val pos) = val pos + 1 := hseq
      have hdata : ∃ p, q.tickets[val pos]? = some (p,q.dataAt n (val pos)) := by
        rcases h.stored (val pos) (by omega) (by omega) with h1 | ⟨-,h1⟩
        · omega
        · exact h1
      rw [State.goto_pc_self]
      exact ⟨⟨hnew,(by omega : q.tickets.length ≤ val pos + n),hcell⟩,hdata⟩
    · rw [State.goto_pc_of_ne he]
      exact (h.pcs c').winDequeue hD hseq
  · intro t c' d ht
    obtain ⟨pos',hw,hp⟩ := h.winner t c' d ht
    have hne : c' ≠ c := by rintro rfl; rw [hc] at hw; simp [Pc.enqueued] at hw
    exact ⟨pos',by simpa [State.goto,hne,State.winDequeue] using hw,hp⟩

theorem Inv.writeData (h : Inv n q) (hc : q.pc c = .enqWrite data pos) :
    Inv n ((q.writeData pos data).goto c (.enqStoreSeq data pos)) := by
  have hp : Producing n q c data (val pos) := by simpa [PcOk,hc] using h.pcs c
  refine { h with stored := ?_, free := ?_, pcs := ?_, winner := ?_ }
  · intro t (ht : q.takers.length ≤ t) (hlt : t < q.tickets.length)
    by_cases he : t % n = val pos % n
    · have hr := h.room
      obtain rfl : t = val pos := Ring.window_injective ⟨ht,by omega⟩ (hp.window h) he
      left
      exact (h.seqAt_writeData pos data _).trans hp.2.2
    · have hd := h.dataAt_writeData pos data t
      rw [if_neg he] at hd
      have hs := h.stored t ht hlt
      rw [← hd,← h.seqAt_writeData pos data t] at hs
      exact hs
  · intro t (ht : q.tickets.length ≤ t) (hlt : t < q.takers.length + n)
    have hs := h.free t ht hlt
    rw [← h.seqAt_writeData pos data t] at hs
    exact hs
  · intro c'
    rw [pcOk_goto]
    by_cases he : c' = c
    · subst he
      have hd := h.dataAt_writeData pos data (val pos)
      rw [if_pos rfl] at hd
      rw [State.goto_pc_self]
      exact ⟨⟨hp.1,hp.2.1,(h.seqAt_writeData pos data _).trans hp.2.2⟩,hd⟩
    · rw [State.goto_pc_of_ne he]
      refine (h.pcs c').frame (hp.apart h he) rfl rfl (fun t _ => h.seqAt_writeData pos data t) ?_
      intro t ht
      rw [h.dataAt_writeData,if_neg ht]
  · intro t c' d ht
    obtain ⟨pos',hw,hpos⟩ := h.winner t c' d ht
    refine ⟨pos',?_,hpos⟩
    by_cases he : c' = c
    · subst he; rw [hc] at hw; rw [State.goto_pc_self]; exact hw
    · rw [State.goto_pc_of_ne he]; exact hw

theorem Inv.publish (h : Inv n q) (hf : fits W (q.tickets.length + n))
    (hc : q.pc c = .enqStoreSeq data pos) :
    Inv n ((q.storeSeq pos (pos + 1)).goto c (.enqReturn data (some pos))) := by
  obtain ⟨hp,hdata⟩ : Producing n q c data (val pos) ∧ q.dataAt n (val pos) = data := by
    simpa [PcOk,hc] using h.pcs c
  have hlt := hp.lt
  have hr := h.room
  have hsucc : val (pos + 1) = val pos + 1 := val_succ (fits_mono hf (by omega))
  have hseq := h.seqAt_storeSeq pos (pos + 1)
  rw [hsucc] at hseq
  refine { h with stored := ?_, free := ?_, pcs := ?_, winner := ?_ }
  · intro t (ht : q.takers.length ≤ t) (hlt' : t < q.tickets.length)
    by_cases he : t % n = val pos % n
    · obtain rfl : t = val pos := Ring.window_injective ⟨ht,by omega⟩ (hp.window h) he
      right
      have hd := h.dataAt_storeSeq pos (pos + 1) (val pos)
      refine ⟨(hseq _).trans (if_pos rfl),c,?_⟩
      exact hp.1.trans (congrArg (fun d => some (c,d)) (hdata.symm.trans hd.symm))
    · have hs := h.stored t ht hlt'
      have hq := hseq t
      rw [if_neg he] at hq
      rw [← hq,← h.dataAt_storeSeq pos (pos + 1) t] at hs
      exact hs
  · intro t (ht : q.tickets.length ≤ t) (hlt' : t < q.takers.length + n)
    have hD := h.order
    have he : t % n ≠ val pos % n := by
      intro he
      have := Ring.window_injective ⟨by omega,hlt'⟩ (hp.window h) he
      omega
    have hs := h.free t ht hlt'
    have hq := hseq t
    rw [if_neg he] at hq
    rw [← hq] at hs
    exact hs
  · intro c'
    rw [pcOk_goto]
    by_cases he : c' = c
    · subst he; rw [State.goto_pc_self]; exact hp.1
    · rw [State.goto_pc_of_ne he]
      refine (h.pcs c').frame (hp.apart h he) rfl rfl ?_ (fun t _ => h.dataAt_storeSeq _ _ t)
      intro t ht
      rw [hseq,if_neg ht]
  · intro t c' d ht
    obtain ⟨pos',hw,hpos⟩ := h.winner t c' d ht
    refine ⟨pos',?_,hpos⟩
    by_cases he : c' = c
    · subst he; rw [hc] at hw; rw [State.goto_pc_self]; exact hw
    · rw [State.goto_pc_of_ne he]; exact hw

theorem Inv.release (h : Inv n q) (hf : fits W (q.tickets.length + n))
    (hc : q.pc c = .deqStoreSeq pos data) :
    Inv n ((q.storeSeq pos (pos + q.mask + 1)).goto c (.deqReturn (some (pos,data)))) := by
  obtain ⟨hu,hp⟩ : Consuming n q c (val pos) ∧
      ∃ p, q.tickets[val pos]? = some (p,data) := by simpa [PcOk,hc] using h.pcs c
  have hlt := hu.lt
  have hD := h.order
  have hlap : val (pos + q.mask + 1) = val pos + n := by
    have hm : val (pos + q.mask + 1) = val pos + (val q.mask + 1) :=
      val_lap (by rw [h.mask]; exact fits_mono hf (by omega))
    rw [hm,h.mask]
  have hseq := h.seqAt_storeSeq pos (pos + q.mask + 1)
  rw [hlap] at hseq
  refine { h with stored := ?_, free := ?_, pcs := ?_, winner := ?_ }
  · intro t (ht : q.takers.length ≤ t) (hlt' : t < q.tickets.length)
    have hr := h.room
    have he : t % n ≠ val pos % n := by
      intro he
      have := Ring.window_injective ⟨ht,by omega⟩ (hu.window h) (by simpa using he)
      have := hu.2.1
      omega
    have hs := h.stored t ht hlt'
    have hq := hseq t
    rw [if_neg he] at hq
    rw [← hq,← h.dataAt_storeSeq pos (pos + q.mask + 1) t] at hs
    exact hs
  · intro t (ht : q.tickets.length ≤ t) (hlt' : t < q.takers.length + n)
    by_cases he : t % n = val pos % n
    · left
      have htu := Ring.window_injective ⟨by omega,hlt'⟩ (hu.window h) (by simpa using he)
      rw [htu]
      exact (hseq _).trans (if_pos (by simp))
    · have hs := h.free t ht hlt'
      have hq := hseq t
      rw [if_neg he] at hq
      rw [← hq] at hs
      exact hs
  · intro c'
    rw [pcOk_goto]
    by_cases he : c' = c
    · subst he; rw [State.goto_pc_self]; exact ⟨hu.1,hp⟩
    · rw [State.goto_pc_of_ne he]
      refine (h.pcs c').frame (hu.apart h he) rfl rfl ?_ (fun t _ => h.dataAt_storeSeq _ _ t)
      intro t ht
      rw [hseq,if_neg ht]
  · intro t c' d ht
    obtain ⟨pos',hw,hpos⟩ := h.winner t c' d ht
    have he : c' ≠ c := by rintro rfl; rw [hc] at hw; simp [Pc.enqueued] at hw
    exact ⟨pos',by rw [State.goto_pc_of_ne he]; exact hw,hpos⟩

theorem Inv.loadSeq_enq (h : Inv n q) (hc : q.pc c = .enqLoadSeq data pos) :
    Inv n (q.goto c
      (if dif (q.buffer (q.slot pos)).sequence pos = 0 then .enqCas data pos
       else if dif (q.buffer (q.slot pos)).sequence pos < 0 then .enqReturn data none
       else .enqLoadPos data)) := by
  have hle : val pos ≤ q.tickets.length := by simpa [PcOk,hc] using h.pcs c
  refine h.goto ?_ (by rw [hc]; rfl)
  split
  · rename_i hz
    rw [seqAt_zero_iff h] at hz
    refine ⟨hle,fun he => ⟨?_,hz⟩⟩
    rw [he] at hz ⊢
    exact h.free_of_seqAt hz
  · split <;> trivial

theorem Inv.loadSeq_deq (h : Inv n q) (hf : fits W (q.tickets.length + n))
    (hc : q.pc c = .deqLoadSeq pos) :
    Inv n (q.goto c
      (if dif (q.buffer (q.slot pos)).sequence (pos + 1) = 0 then .deqCas pos
       else if dif (q.buffer (q.slot pos)).sequence (pos + 1) < 0 then .deqReturn none
       else .deqLoadPos)) := by
  have hle : val pos ≤ q.takers.length := by simpa [PcOk,hc] using h.pcs c
  have hD := h.order
  have h2 := h.two_le
  refine h.goto ?_ (by rw [hc]; rfl)
  split
  · rename_i hz
    rw [seqAt_zero_iff h,val_succ (fits_mono hf (by omega))] at hz
    refine ⟨hle,fun he => ⟨?_,hz⟩⟩
    rw [he] at hz ⊢
    exact h.stored_of_seqAt hz
  · split <;> trivial

theorem Inv.step [DecidableEq W] {q' : State W T ι} {spurious : Bool} (h : Inv n q)
    (hf : fits W (q.tickets.length + n)) (hs : q.step c spurious = some q') : Inv n q' := by
  have hE := h.enqueuePos
  have hD := h.dequeuePos
  cases hc : q.pc c with
  | idle => simp [State.step,hc] at hs
  | enqLoadPos d =>
    simp only [State.step,hc,Option.some.injEq] at hs
    subst hs
    exact h.goto (show val _ ≤ _ by omega) (by rw [hc]; rfl)
  | enqLoadSeq d pos =>
    simp only [State.step,hc,Option.some.injEq] at hs
    subst hs
    exact h.loadSeq_enq hc
  | enqCas d pos =>
    simp only [State.step,hc] at hs
    split at hs
    · rename_i hcas
      cases hs
      exact h.winEnqueue hf hc hcas.1
    · cases hs
      exact h.goto (show val _ ≤ _ by omega) (by rw [hc]; rfl)
  | enqWrite d pos =>
    simp only [State.step,hc,Option.some.injEq] at hs
    subst hs
    exact h.writeData hc
  | enqStoreSeq d pos =>
    simp only [State.step,hc,Option.some.injEq] at hs
    subst hs
    exact h.publish hf hc
  | enqReturn d won => simp [State.step,hc] at hs
  | deqLoadPos =>
    simp only [State.step,hc,Option.some.injEq] at hs
    subst hs
    exact h.goto (show val _ ≤ _ by omega) (by rw [hc]; rfl)
  | deqLoadSeq pos =>
    simp only [State.step,hc,Option.some.injEq] at hs
    subst hs
    exact h.loadSeq_deq hf hc
  | deqCas pos =>
    simp only [State.step,hc] at hs
    split at hs
    · rename_i hcas
      cases hs
      exact h.winDequeue hf hc hcas.1
    · cases hs
      exact h.goto (show val _ ≤ _ by omega) (by rw [hc]; rfl)
  | deqRead pos =>
    simp only [State.step,hc,Option.some.injEq] at hs
    subst hs
    obtain ⟨hu,p,hp⟩ : Consuming n q c (val pos) ∧
        ∃ p, q.tickets[val pos]? = some (p,q.dataAt n (val pos)) := by
      simpa [PcOk,hc] using h.pcs c
    exact h.goto ⟨hu,p,by rw [h.data]; exact hp⟩ (by rw [hc]; rfl)
  | deqStoreSeq pos d =>
    simp only [State.step,hc,Option.some.injEq] at hs
    subst hs
    exact h.release hf hc
  | deqReturn won => simp [State.step,hc] at hs

end Steps

theorem Inv.next [DecidableEq W] {n : Nat} {q q' : State W T ι} {a : Act T ι} (h : Inv n q)
    (hf : fits W (q.tickets.length + n)) (hs : q.next a = some q') : Inv n q' := by
  have hcall : ∀ {c p}, PcOk n q c p → q.call c p = some q' → Inv n q' := by
    intro c p hp hs
    unfold State.call at hs
    split at hs
    · rename_i hc
      cases hs
      exact h.goto hp (by rw [hc]; rfl)
    · cases hs
  cases a with
  | enqueue c data => exact hcall (p := .enqLoadPos data) trivial hs
  | dequeue c => exact hcall (p := .deqLoadPos) trivial hs
  | step c spurious => exact h.step hf hs

end Flashsale.MpmcQueue
