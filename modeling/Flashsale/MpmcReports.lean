import Flashsale.MpmcRecords
import Flashsale.MpmcWrap
import Mathlib
set_option autoImplicit false

/-!
What a refusal says: the sequence number a call compares with its position, however
stale, is behind it only where the position is the current counter, and the cell
still that of the ticket one round before.
-/

namespace Flashsale.MpmcQueue
open SizeT Transition
variable {W T ι : Type} [SizeT W]

def Pc.published : Pc W T → Option W
  | .enqReturn _ won => won
  | _ => none

def Pc.released : Pc W T → Option W
  | .deqReturn won => won.map Prod.fst
  | _ => none

def State.Published (q : State W T ι) (t : Nat) : Prop :=
  ∃ c pos, (q.pc c).published = some pos ∧ val pos = t

def State.Released (q : State W T ι) (t : Nat) : Prop :=
  ∃ c pos, (q.pc c).released = some pos ∧ val pos = t

/-- The items of the tickets that an enqueuer has won and no dequeuer, in order. -/
def State.stored (q : State W T ι) : List T := (q.tickets.drop q.takers.length).map Prod.snd

def Pc.refused : Pc W T → Bool
  | .enqReturn _ none | .deqReturn none => true
  | _ => false

/-- No sequence number is behind what the calls that returned have stored, and those
of the first round stay until their ticket is won. -/
structure Marks (n : Nat) (q : State W T ι) : Prop where
  published : ∀ t, q.Published t → t + 1 ≤ q.seqAt n t
  released : ∀ t, q.Released t → t + n ≤ q.seqAt n t
  fresh : ∀ t, q.tickets.length ≤ t → t < n → q.seqAt n t = t

section Steps
variable [DecidableEq ι] [DecidableEq W] {n : Nat} {q q' : State W T ι}

/-- How a step moves the sequence numbers. -/
inductive Marked (q q' : State W T ι) : Prop where
  | quiet (sequence : ∀ i, (q'.buffer i).sequence = (q.buffer i).sequence)
      (published : ∀ c, (q'.pc c).published = (q.pc c).published)
      (released : ∀ c, (q'.pc c).released = (q.pc c).released)
  | publish (c : ι) (data : T) (pos : W) (pc : q.pc c = .enqStoreSeq data pos)
      (eq : q' = (q.storeSeq pos (pos + 1)).goto c (.enqReturn data (some pos)))
  | release (c : ι) (data : T) (pos : W) (pc : q.pc c = .deqStoreSeq pos data)
      (eq : q' = (q.storeSeq pos (pos + q.mask + 1)).goto c (.deqReturn (some (pos,data))))

omit [DecidableEq W] in
theorem Marked.goto {s : State W T ι} {c : ι} {p : Pc W T} (hpc : s.pc = q.pc)
    (hseq : ∀ i, (s.buffer i).sequence = (q.buffer i).sequence)
    (hpub : p.published = (q.pc c).published) (hrel : p.released = (q.pc c).released) :
    Marked q (s.goto c p) := by
  refine .quiet hseq (fun c' => ?_) (fun c' => ?_)
  all_goals
    by_cases hc : c' = c
    · subst hc
      rw [State.goto_pc_self]
      first | exact hpub | exact hrel
    · rw [State.goto_pc_of_ne hc,hpc]

theorem State.step_marked {c : ι} {spurious : Bool} (h : q.step c spurious = some q') :
    Marked q q' := by
  cases hp : q.pc c with
  | idle | enqReturn _ _ | deqReturn _ => simp [State.step,hp] at h
  | enqLoadPos data | deqLoadPos | deqRead pos =>
    simp only [State.step,hp,Option.some.injEq] at h
    subst h
    exact .goto rfl (fun _ => rfl) (by rw [hp]; rfl) (by rw [hp]; rfl)
  | enqLoadSeq data pos | deqLoadSeq pos =>
    simp only [State.step,hp,Option.some.injEq] at h
    subst h
    refine .goto rfl (fun _ => rfl) ?_ ?_
    · rw [hp]; split <;> [rfl; split <;> rfl]
    · rw [hp]; split <;> [rfl; split <;> rfl]
  | enqCas data pos | deqCas pos =>
    simp only [State.step,hp] at h
    split at h
    all_goals
      cases h
      exact .goto rfl (fun _ => rfl) (by rw [hp]; rfl) (by rw [hp]; rfl)
  | enqWrite data pos =>
    simp only [State.step,hp,Option.some.injEq] at h
    subst h
    refine .goto rfl (fun i => ?_) (by rw [hp]; rfl) (by rw [hp]; rfl)
    by_cases hi : i = q.slot pos <;> simp [State.writeData,hi]
  | enqStoreSeq data pos =>
    simp only [State.step,hp,Option.some.injEq] at h
    exact .publish c data pos hp h.symm
  | deqStoreSeq pos data =>
    simp only [State.step,hp,Option.some.injEq] at h
    exact .release c data pos hp h.symm

theorem State.next_marked {a : Act T ι} (h : q.next a = some q') : Marked q q' := by
  cases a with
  | enqueue c data | dequeue c =>
    obtain ⟨hp,rfl⟩ := State.call_eq h
    exact .goto rfl (fun _ => rfl) (by rw [hp]; rfl) (by rw [hp]; rfl)
  | step c spurious => exact State.step_marked h

omit [DecidableEq W] in
theorem ended_goto {f : Pc W T → Option W} {s : State W T ι} {c : ι} {p : Pc W T} {t : Nat}
    (hpc : s.pc = q.pc) (h : ∃ c' pos, f ((s.goto c p).pc c') = some pos ∧ val pos = t) :
    (∃ c' pos, f (q.pc c') = some pos ∧ val pos = t) ∨ ∃ pos, f p = some pos ∧ val pos = t := by
  obtain ⟨c',pos,hp,ht⟩ := h
  by_cases hc : c' = c
  · subst hc
    rw [State.goto_pc_self] at hp
    exact .inr ⟨pos,hp,ht⟩
  · rw [State.goto_pc_of_ne hc,hpc] at hp
    exact .inl ⟨c',pos,hp,ht⟩

omit [DecidableEq W] in
theorem Marks.storeSeq {c : ι} {p : Pc W T} {pos seq : W} (h : Marks n q) (hi : Inv n q)
    (hup : q.seqAt n (val pos) ≤ val seq) (hlt : val pos < q.tickets.length)
    (hpub : ∀ pos', p.published = some pos' → pos' = pos ∧ val pos + 1 ≤ val seq)
    (hrel : ∀ pos', p.released = some pos' → pos' = pos ∧ val pos + n ≤ val seq) :
    Marks n ((q.storeSeq pos seq).goto c p) := by
  have hseq : ∀ t, ((q.storeSeq pos seq).goto c p).seqAt n t =
      if t % n = val pos % n then val seq else q.seqAt n t := hi.seqAt_storeSeq pos seq
  have hmono : ∀ t, q.seqAt n t ≤ ((q.storeSeq pos seq).goto c p).seqAt n t := by
    intro t
    rw [hseq]
    split
    · rename_i he
      have : q.seqAt n t = q.seqAt n (val pos) := by simp [State.seqAt,he]
      omega
    · exact Nat.le_refl _
  refine ⟨fun t ht => ?_,fun t ht => ?_,fun t ht hn => ?_⟩
  · rcases ended_goto (q := q) rfl ht with hold | ⟨pos',hp,rfl⟩
    · exact (h.published t hold).trans (hmono t)
    · obtain ⟨rfl,hle⟩ := hpub pos' hp
      rw [hseq,if_pos rfl]
      exact hle
  · rcases ended_goto (q := q) rfl ht with hold | ⟨pos',hp,rfl⟩
    · exact (h.released t hold).trans (hmono t)
    · obtain ⟨rfl,hle⟩ := hrel pos' hp
      rw [hseq,if_pos rfl]
      exact hle
  · have ht' : q.tickets.length ≤ t := ht
    rw [hseq,if_neg (by rw [Nat.mod_eq_of_lt hn,Nat.mod_eq_of_lt (by omega)]; omega)]
    exact h.fresh t ht' hn

theorem Marks.next {a : Act T ι} (h : Marks n q) (hi : Inv n q)
    (hf : fits W (q.tickets.length + n)) (hn : q.next a = some q') : Marks n q' := by
  have h2 := hi.two_le
  cases State.next_marked hn with
  | quiet sequence published released =>
    have hseq : ∀ t, q'.seqAt n t = q.seqAt n t := fun t => by simp [State.seqAt,sequence]
    refine ⟨fun t ht => ?_,fun t ht => ?_,fun t ht hlt => ?_⟩
    · rw [hseq]
      obtain ⟨c,pos,hp,he⟩ := ht
      exact h.published t ⟨c,pos,by rw [← published]; exact hp,he⟩
    · rw [hseq]
      obtain ⟨c,pos,hp,he⟩ := ht
      exact h.released t ⟨c,pos,by rw [← released]; exact hp,he⟩
    · rw [hseq]
      exact h.fresh t ((State.next_tickets hn).length_le.trans ht) hlt
  | publish c data pos pc eq =>
    subst eq
    obtain ⟨hp,-⟩ : Producing n q c data (val pos) ∧ q.dataAt n (val pos) = data := by
      simpa [PcOk,pc] using hi.pcs c
    have hlt := hp.lt
    have hsucc : val (pos + 1) = val pos + 1 := val_succ (fits_mono hf (by omega))
    refine h.storeSeq hi (by rw [hp.2.2]; omega) hlt ?_ ?_
    · intro pos' he; cases he; exact ⟨rfl,by omega⟩
    · intro pos' he; cases he
  | release c data pos pc eq =>
    subst eq
    obtain ⟨hu,-⟩ : Consuming n q c (val pos) ∧
        ∃ p, q.tickets[val pos]? = some (p,data) := by simpa [PcOk,pc] using hi.pcs c
    have hlt := hu.lt
    have hD := hi.order
    have hlap : val (pos + q.mask + 1) = val pos + (val q.mask + 1) :=
      val_lap (by rw [hi.mask]; exact fits_mono hf (by omega))
    rw [hi.mask] at hlap
    refine h.storeSeq hi (by rw [hu.2.2]; omega) (by omega) ?_ ?_
    · intro pos' he; cases he
    · intro pos' he; cases he; exact ⟨rfl,by omega⟩

end Steps

section Bounds
variable {n : Nat} {q : State W T ι}

/-- The sequence number of a ticket taken is past the ticket. -/
theorem Inv.seqAt_taken {t : Nat} (h : Inv n q) (hm : Marks n q) (hk : Takers q)
    (ht : t < q.takers.length) : t + 1 ≤ q.seqAt n t := by
  have h2 := h.two_le
  obtain ⟨c,hc⟩ : ∃ c, q.takers[t]? = some c := ⟨_,List.getElem?_eq_getElem ht⟩
  obtain ⟨pos,hp,rfl⟩ := hk t c hc
  have hok := h.pcs c
  cases hpc : q.pc c with
  | deqRead p | deqStoreSeq p d =>
    rw [hpc] at hp hok
    cases hp
    exact hok.1.2.2.ge
  | deqReturn won =>
    have hr : q.Released (val pos) := by
      refine ⟨c,pos,?_,rfl⟩
      rw [hpc] at hp ⊢
      cases won with
      | none => cases hp
      | some x => exact hp
    have := hm.released _ hr
    omega
  | _ => simp [hpc,Pc.dequeued] at hp

theorem Inv.seqAt_won {t : Nat} (h : Inv n q) (hm : Marks n q) (hk : Takers q)
    (ht : t < q.tickets.length) : t ≤ q.seqAt n t := by
  rcases Nat.lt_or_ge t q.takers.length with hlt | hge
  · have := h.seqAt_taken hm hk hlt
    omega
  · rcases h.stored t hge ht with hs | ⟨hs,-⟩ <;> omega

/-- No sequence number is a round past the tickets won. -/
theorem Inv.seqAt_lt (h : Inv n q) (t : Nat) : q.seqAt n t < q.tickets.length + n := by
  have h2 := h.two_le
  have hD := h.order
  -- the ticket of the slot in the current window
  obtain ⟨u,hu,hlt,he⟩ := Ring.window_exists (by omega : 0 < n) q.takers.length t
  have hs : q.seqAt n t = q.seqAt n u := by simp [State.seqAt,he]
  rw [hs]
  rcases Nat.lt_or_ge u q.tickets.length with hw | hw
  · rcases h.stored u hu hw with h1 | ⟨h1,-⟩ <;> omega
  · rcases h.free u hw hlt with h1 | h1 <;> omega

/-- A sequence number is no more than `m`, whole rounds, ahead of a ticket of its
cell, while fewer than `m` are won. -/
theorem Inv.seqAt_le {m : Nat} (h : Inv n q) (hm : n ∣ m) (hlt : q.tickets.length < m) (t : Nat) :
    q.seqAt n t ≤ t + m := by
  have h2 := h.two_le
  have hD := h.order
  obtain ⟨u,hu,hun,he⟩ := Ring.window_exists (by omega : 0 < n) q.takers.length t
  have hs : q.seqAt n t = q.seqAt n u := by simp [State.seqAt,he]
  rw [hs]
  rcases Nat.lt_or_ge u q.tickets.length with hw | hw
  · rcases h.stored u hu hw with h1 | ⟨h1,-⟩ <;> omega
  · have hle : u ≤ t + m := by
      rcases Nat.le_total u t with hut | htu
      · omega
      -- `u - t` and `m` are whole rounds, and less than one round apart
      · obtain ⟨i,hi⟩ : n ∣ u - t := (Nat.modEq_iff_dvd' htu).mp he.symm
        obtain ⟨j,rfl⟩ := hm
        have hij : i < j + 1 := by
          refine Nat.lt_of_mul_lt_mul_left (a := n) ?_
          rw [Nat.mul_add]
          omega
        have := Nat.mul_le_mul_left n (Nat.lt_succ_iff.mp hij)
        omega
    rcases h.free u hw hun with h1 | h1 <;> omega

theorem Inv.behind_enqueue {t : Nat} (h : Inv n q) (hm : Marks n q) (hk : Takers q)
    (ht : t ≤ q.tickets.length) (hb : q.seqAt n t < t) :
    t = q.tickets.length ∧ ∃ u, u + n = t ∧ ¬q.Released u := by
  have he : t = q.tickets.length := by
    by_contra hne
    have := h.seqAt_won hm hk (by omega : t < q.tickets.length)
    omega
  have hn : n ≤ t := by
    by_contra hlt
    have := hm.fresh t (by omega) (by omega)
    omega
  refine ⟨he,t-n,by omega,fun hr => ?_⟩
  have hs : q.seqAt n t = q.seqAt n (t-n) := by
    simp only [State.seqAt]
    rw [Nat.mod_eq_sub_mod hn]
  have := hm.released _ hr
  omega

theorem Inv.behind_dequeue {t : Nat} (h : Inv n q) (hm : Marks n q) (hk : Takers q)
    (ht : t ≤ q.takers.length) (hb : q.seqAt n t < t + 1) :
    t = q.takers.length ∧ ¬q.Published t := by
  constructor
  · by_contra hne
    have := h.seqAt_taken hm hk (by omega : t < q.takers.length)
    omega
  · intro hp
    have := hm.published t hp
    omega

theorem Inv.full_of_unreleased {u : Nat} (h : Inv n q) (hk : Takers q)
    (hidle : ∀ c, (q.pc c).dequeuing → (q.pc c).ret.isSome) (hu : u + n = q.tickets.length)
    (hr : ¬q.Released u) : q.stored.length = n := by
  have hroom := h.room
  have hle : q.takers.length ≤ u := by
    by_contra hlt
    obtain ⟨c,hc⟩ : ∃ c, q.takers[u]? = some c := ⟨_,List.getElem?_eq_getElem (by omega)⟩
    obtain ⟨pos,hp,rfl⟩ := hk u c hc
    have hret := hidle c
    refine hr ⟨c,pos,?_,rfl⟩
    cases hpc : q.pc c with
    | deqRead p | deqStoreSeq p d => simp [hpc,Pc.dequeuing,Pc.ret] at hret
    | deqReturn won =>
      rw [hpc] at hp
      cases won with
      | none => cases hp
      | some x => exact hp
    | _ => simp [hpc,Pc.dequeued] at hp
  simp only [State.stored,List.length_map,List.length_drop]
  omega

theorem Inv.empty_of_unpublished (h : Inv n q)
    (hidle : ∀ c, (q.pc c).item.isSome → (q.pc c).ret.isSome)
    (hp : ¬q.Published q.takers.length) : q.stored = [] := by
  have hle : q.tickets.length ≤ q.takers.length := by
    by_contra hlt
    obtain ⟨⟨c,data⟩,hc⟩ : ∃ e, q.tickets[q.takers.length]? = some e :=
      ⟨_,List.getElem?_eq_getElem (by omega)⟩
    obtain ⟨pos,hw,he⟩ := h.winner q.takers.length c data hc
    have hret := hidle c
    refine hp ⟨c,pos,?_,he⟩
    cases hpc : q.pc c with
    | enqWrite d p | enqStoreSeq d p => simp [hpc,Pc.item,Pc.ret] at hret
    | enqReturn d won =>
      rw [hpc] at hw
      cases won with
      | none => cases hw
      | some x => cases hw; rfl
    | _ => simp [hpc,Pc.enqueued] at hw
  simp [State.stored,List.drop_eq_nil_of_le hle]

end Bounds

section Refusals
variable [DecidableEq ι] [DecidableEq W] {q q' : State W T ι} {c : ι} {a : Act T ι}

theorem State.next_refused (h : q.next a = some q') (hnot : (q.pc c).refused = false)
    (hr : (q'.pc c).refused) : ∃ b, a = .step c b ∧
      ((∃ data pos, q.pc c = .enqLoadSeq data pos ∧ q'.pc c = .enqReturn data none ∧
          dif (q.buffer (q.slot pos)).sequence pos < 0) ∨
        ∃ pos, q.pc c = .deqLoadSeq pos ∧ q'.pc c = .deqReturn none ∧
          dif (q.buffer (q.slot pos)).sequence (pos + 1) < 0) := by
  cases a with
  | enqueue c' d | dequeue c' =>
    obtain ⟨-,rfl⟩ := State.call_eq h
    by_cases hc : c = c'
    · subst hc; rw [State.goto_pc_self] at hr; cases hr
    · rw [State.goto_pc_of_ne hc,hnot] at hr; cases hr
  | step c' b =>
    by_cases hc : c = c'
    · subst hc
      refine ⟨b,rfl,?_⟩
      change q.step c b = some q' at h
      cases hp : q.pc c with
      | idle | enqReturn _ _ | deqReturn _ => simp [State.step,hp] at h
      | enqLoadSeq d pos | deqLoadSeq pos =>
        simp only [State.step,hp,Option.some.injEq] at h
        subst h
        rw [State.goto_pc_self] at hr ⊢
        split at hr
        · cases hr
        · split at hr
          · rename_i hz hneg
            simp [hz,hneg]
          · cases hr
      | enqCas d pos | deqCas pos =>
        simp only [State.step,hp] at h
        split at h
        all_goals
          cases h
          rw [State.goto_pc_self] at hr
          cases hr
      | _ =>
        simp only [State.step,hp,Option.some.injEq] at h
        subst h
        rw [State.goto_pc_self] at hr
        cases hr
    · rw [State.step_pc_of_ne h hc,hnot] at hr
      cases hr

theorem State.next_returned (h : q.next a = some q') (hr : (q.pc c).ret.isSome) :
    q'.pc c = q.pc c := by
  cases a with
  | enqueue c' d | dequeue c' =>
    obtain ⟨hp,rfl⟩ := State.call_eq h
    refine State.goto_pc_of_ne ?_
    rintro rfl
    simp [hp,Pc.ret] at hr
  | step c' b =>
    refine State.step_pc_of_ne h ?_
    rintro rfl
    cases hp : q.pc c with
    | enqReturn d won | deqReturn won => simp [State.next,State.step,hp] at h
    | _ => simp [hp,Pc.ret] at hr

omit [SizeT W] [DecidableEq ι] [DecidableEq W] in
theorem Pc.ret_of_refused {p : Pc W T} (h : p.refused) : p.ret.isSome := by
  cases p <;> first | rfl | cases h

end Refusals

section Reachable
variable [DecidableEq ι] [DecidableEq W] [Inhabited T] {capacity : W} {q : State W T ι}

omit [DecidableEq ι] [DecidableEq W] in
theorem create_marks (h : create capacity = some q) :
    Marks (val capacity) q ∧ Takers q ∧ ∀ c, q.pc c = .idle := by
  have hpow := (create_isSome_iff.mp (Option.isSome_of_eq_some h)).1
  unfold create at h
  split at h
  · cases h
  · cases h
    refine ⟨⟨?_,?_,?_⟩,?_,fun _ => rfl⟩
    · rintro t ⟨c,pos,hp,-⟩; cases hp
    · rintro t ⟨c,pos,hp,-⟩; cases hp
    · intro t _ ht
      simp only [State.seqAt,Nat.mod_eq_of_lt ht]
      exact val_ofNat (fits_mono (val_fits capacity) (by omega))
    · intro t c ht; simp at ht

theorem reachable_marks (h : (system capacity).Reachable q)
    (hf : fits W (q.tickets.length + val capacity)) : Marks (val capacity) q ∧ Takers q := by
  refine (h.invariant (I := fun q => fits W (q.tickets.length + val capacity) →
    Inv (val capacity) q ∧ Marks (val capacity) q ∧ Takers q) ?_ ?_ hf).2
  · intro s hs _
    exact ⟨create_inv hs,(create_marks hs).1,(create_marks hs).2.1⟩
  · intro s a t ih hn hf
    have hlen := (State.next_tickets hn).length_le
    have hs := fits_mono hf (Nat.add_le_add_right hlen _)
    obtain ⟨hi,hm,hk⟩ := ih hs
    exact ⟨hi.next hs hn,hm.next hi hs hn,hk.next hi hn⟩

end Reachable

section Words
variable [DecidableEq ι] [Inhabited T] {capacity : BitVec 64} {q₀ r : State (BitVec 64) T ι}
  {acts : List (Act T ι)} {c : ι}

/-- Call `c` came to where it stands in `r` by a step from a state where `P` holds. -/
def CameFrom (capacity : BitVec 64) (q₀ : State (BitVec 64) T ι) (acts : List (Act T ι))
    (r : State (BitVec 64) T ι) (c : ι) (P : State (BitVec 64) T ι → Prop) : Prop :=
  ∃ as b bs q q', acts = as ++ .step c b :: bs ∧ (system capacity).Run q₀ as q ∧
    q.step c b = some q' ∧ (system capacity).Run q' bs r ∧ q'.pc c = r.pc c ∧ P q

/-- What a refused enqueue finds: its position is the counter, and nobody has released
the cell since the round before. -/
def FullAt (capacity : BitVec 64) (q : State (BitVec 64) T ι) (pos : BitVec 64) : Prop :=
  pos = q.enqueuePos ∧ (∃ t, t + capacity.toNat = pos.toNat ∧ ¬q.Released t) ∧
    ((∀ c, (q.pc c).dequeuing → (q.pc c).ret.isSome) → q.stored.length = capacity.toNat)

/-- What a refused dequeue finds: its position is the counter, and nobody has
published its ticket. -/
def EmptyAt (q : State (BitVec 64) T ι) (pos : BitVec 64) : Prop :=
  pos = q.dequeuePos ∧ ¬q.Published pos.toNat ∧
    ((∀ c, (q.pc c).item.isSome → (q.pc c).ret.isSome) → q.stored = [])

theorem refused_step {q q' : State (BitVec 64) T ι} {a : Act T ι}
    (h : (system capacity).Reachable q) (ht : q.tickets.length < 2^63)
    (hn : q.next a = some q') (hnot : (q.pc c).refused = false) (hr : (q'.pc c).refused) :
    ∃ b, a = .step c b ∧
      ((∃ data pos, q.pc c = .enqLoadSeq data pos ∧ q'.pc c = .enqReturn data none ∧
          (q.tickets.length + capacity.toNat ≤ 2^63 → FullAt capacity q pos)) ∨
        ∃ pos, q.pc c = .deqLoadSeq pos ∧ q'.pc c = .deqReturn none ∧ EmptyAt q pos) := by
  have hround := reachable_round h
  have hcap : capacity.toNat ≤ 2^63 := Nat.le_of_dvd (by decide) hround
  have hf : q.tickets.length + capacity.toNat < 2^64 := by omega
  have hi : Inv capacity.toNat q := reachable_inv_64 h ht
  obtain ⟨hm,hk⟩ : Marks capacity.toNat q ∧ Takers q := reachable_marks h hf
  have h2 := hi.two_le
  have hD := hi.order
  obtain ⟨b,rfl,⟨data,pos,hp,hp',hneg⟩ | ⟨pos,hp,hp',hneg⟩⟩ := State.next_refused hn hnot hr
  · refine ⟨b,rfl,.inl ⟨data,pos,hp,hp',fun hroom => ?_⟩⟩
    have hle : val pos ≤ q.tickets.length := by simpa [PcOk,hp] using hi.pcs c
    have hseq := hi.seqAt_lt (val pos)
    rw [dif_neg_iff (by decide) (by omega) (by rw [hi.sequence]; omega),hi.sequence] at hneg
    obtain ⟨he,t,htn,hrel⟩ := hi.behind_enqueue hm hk hle hneg
    refine ⟨val_injective (he.trans hi.enqueuePos.symm),⟨t,htn,hrel⟩,?_⟩
    exact fun hidle => hi.full_of_unreleased hk hidle (htn.trans he) hrel
  · have hle : val pos ≤ q.takers.length := by simpa [PcOk,hp] using hi.pcs c
    have hsucc : val (pos + 1) = val pos + 1 := val_succ (show val pos + 1 < 2^64 by omega)
    have hseq := hi.seqAt_le hround ht (val pos)
    rw [dif_neg_iff (by decide) (by omega) (by rw [hi.sequence]; omega),hi.sequence,hsucc] at hneg
    obtain ⟨he,hpub⟩ := hi.behind_dequeue hm hk hle hneg
    refine ⟨b,rfl,.inr ⟨pos,hp,hp',val_injective (he.trans hi.dequeuePos.symm),hpub,?_⟩⟩
    exact fun hidle => hi.empty_of_unpublished hidle (he ▸ hpub)

/-- Full and empty reports are justified, from however stale a position the call
started: below `2^63` tickets the empty ones, up to `2^63 - capacity` the full ones. -/
theorem refusals_justified (hi : (system capacity).init q₀) (hr : (system capacity).Run q₀ acts r)
    (ht : r.tickets.length < 2^63) :
    (r.tickets.length + capacity.toNat ≤ 2^63 → ∀ c data, r.pc c = .enqReturn data none →
      CameFrom capacity q₀ acts r c
        (fun q => ∃ pos, q.pc c = .enqLoadSeq data pos ∧ FullAt capacity q pos)) ∧
    ∀ c, r.pc c = .deqReturn none → CameFrom capacity q₀ acts r c
      (fun q => ∃ pos, q.pc c = .deqLoadSeq pos ∧ EmptyAt q pos) := by
  have hentry : ∀ c, (r.pc c).refused → CameFrom capacity q₀ acts r c (fun q =>
      q.tickets.length ≤ r.tickets.length ∧
      ((∃ data pos, q.pc c = .enqLoadSeq data pos ∧ r.pc c = .enqReturn data none ∧
          (q.tickets.length + capacity.toNat ≤ 2^63 → FullAt capacity q pos)) ∨
        ∃ pos, q.pc c = .deqLoadSeq pos ∧ r.pc c = .deqReturn none ∧ EmptyAt q pos)) := by
    intro c hc
    have hidle : q₀.pc c = .idle := (create_marks hi).2.2 c
    obtain ⟨as,a,bs,q,q',he,hrun,hn,hrest,hnot,hq'⟩ :=
      hr.entry (P := fun s => (s.pc c).refused) (by rw [hidle]; exact Bool.false_ne_true) hc
    -- the call has returned in `q'`, so it stands there in `r`
    have hpc : r.pc c = q'.pc c :=
      hrest.invariant (I := fun s => s.pc c = q'.pc c)
        (fun s a t hs hst => (State.next_returned hst (by rw [hs]; exact Pc.ret_of_refused hq')).trans hs)
        rfl
    have hlen : q.tickets.length ≤ r.tickets.length := (System.Run.cons hn hrest).relates
      (R := fun s t => s.tickets.length ≤ t.tickets.length) (fun _ => Nat.le_refl _)
      (fun _ _ _ => Nat.le_trans) (fun _ _ _ hst => (State.next_tickets hst).length_le)
    obtain ⟨b,rfl,hcase⟩ := refused_step ⟨q₀,as,hi,hrun⟩ (by omega) hn (by simpa using hnot) hq'
    rw [← hpc] at hcase
    exact ⟨as,b,bs,q,q',he,hrun,hn,hrest,hpc.symm,hlen,hcase⟩
  constructor
  · intro hroom c data hc
    obtain ⟨as,b,bs,q,q',he,hrun,hs,hrest,hpc,hlen,hcase⟩ := hentry c (by rw [hc]; rfl)
    refine ⟨as,b,bs,q,q',he,hrun,hs,hrest,hpc,?_⟩
    obtain ⟨d,pos,hp,hret,hfull⟩ | ⟨pos,-,hret,-⟩ := hcase
    · rw [hc] at hret
      cases hret
      exact ⟨pos,hp,hfull (by omega)⟩
    · rw [hc] at hret
      cases hret
  · intro c hc
    obtain ⟨as,b,bs,q,q',he,hrun,hs,hrest,hpc,-,hcase⟩ := hentry c (by rw [hc]; rfl)
    refine ⟨as,b,bs,q,q',he,hrun,hs,hrest,hpc,?_⟩
    obtain ⟨d,pos,-,hret,-⟩ | ⟨pos,hp,-,hempty⟩ := hcase
    · rw [hc] at hret
      cases hret
    · exact ⟨pos,hp,hempty⟩

end Words

/-- A first call finds nothing, two items fill the two cells, and a fourth call is refused. -/
def refusedRun : List (Act Nat Nat) :=
  .dequeue 3 :: List.replicate 2 (.step 3 false) ++
    .enqueue 0 7 :: List.replicate 5 (.step 0 false) ++
    .enqueue 1 8 :: List.replicate 5 (.step 1 false) ++ .enqueue 2 9 :: List.replicate 2 (.step 2 false)

def twoCells : State (BitVec 64) Nat Nat := (create 2#64).get (by decide)

def refusedEnd : State (BitVec 64) Nat Nat :=
  ((system 2#64).exec twoCells refusedRun).get (by decide)

theorem refusals_justified_third :
    (refusedEnd.pc 2 = .enqReturn 9 none ∧ CameFrom 2#64 twoCells refusedRun refusedEnd 2
      (fun q => ∃ pos, q.pc 2 = .enqLoadSeq 9 pos ∧ FullAt 2#64 q pos)) ∧
    refusedEnd.pc 3 = .deqReturn none ∧ CameFrom 2#64 twoCells refusedRun refusedEnd 3
      (fun q => ∃ pos, q.pc 3 = .deqLoadSeq pos ∧ EmptyAt q pos) :=
  have h := refusals_justified (init_create (by decide)) (System.run_of_exec (Option.some_get _).symm)
    (by decide : refusedEnd.tickets.length < 2^63)
  ⟨⟨rfl,h.1 (by decide) 2 9 rfl⟩,rfl,h.2 3 rfl⟩

/-- A call stopped at its sequence load with position 0, while `m` items go through
the two cells. -/
theorem stale_rounds (m : Nat) : ∃ q : State (BitVec 64) Nat Nat, (system 2#64).Reachable q ∧
    Holds 1 q m [] ∧ q.pc 0 = .enqLoadSeq 7 0#64 ∧ (∀ c, 2*m < c → q.pc c = .idle) ∧
    ∀ c, (q.pc c).dequeuing → (q.pc c).ret.isSome := by
  induction m with
  | zero =>
    obtain ⟨q,hq,hh,hidle⟩ :=
      create_holds (k := 1) (w := 64) (T := Nat) (ι := Nat) (by decide) (by decide)
    have hcall : (system 2#64).next q (.enqueue 0 7) = some (q.goto 0 (.enqLoadPos 7)) := by
      simp only [system,State.next,State.call,hidle]
    have hload : (system 2#64).next (q.goto 0 (.enqLoadPos 7)) (.step 0 false) =
        some ((q.goto 0 (.enqLoadPos 7)).goto 0 (.enqLoadSeq 7 q.enqueuePos)) := by
      simp only [system,State.next,State.step,State.goto_pc_self]
      rfl
    refine ⟨_,⟨q,_,hq,.cons hcall (.single hload)⟩,hh.goto.goto,?_,?_,?_⟩
    · rw [State.goto_pc_self,hh.enqueuePos]; rfl
    · intro c hc
      rw [State.goto_pc_of_ne (by omega),State.goto_pc_of_ne (by omega)]
      exact hidle c
    · intro c hc
      by_cases h0 : c = 0
      · subst h0; rw [State.goto_pc_self] at hc; cases hc
      · rw [State.goto_pc_of_ne h0,State.goto_pc_of_ne h0,hidle] at hc; cases hc
  | succ m ih =>
    obtain ⟨q,hreach,hh,hstale,hidle,hret⟩ := ih
    obtain ⟨r,s,hput⟩ := hh.called 2#64 (by decide) (by decide) (hidle (2*m+1) (by omega))
      (.tryEnqueue 7)
    obtain ⟨rfl,hs⟩ := hput.fifo (by decide) (by decide) hh
    have hsidle : s.pc (2*m+2) = .idle := by
      rw [hput.pc_of_ne (by omega)]
      exact hidle _ (by omega)
    obtain ⟨r,t,hget⟩ := hs.called 2#64 (by decide) (by decide) hsidle .tryDequeue
    obtain ⟨rfl,ht⟩ := hget.fifo (by decide) (by decide) hs
    have hkeep : ∀ c, c ≠ 2*m+1 → c ≠ 2*m+2 → t.pc c = q.pc c := fun c h1 h2 => by
      rw [hget.pc_of_ne h2,hput.pc_of_ne h1]
    have hfirst : t.pc (2*m+1) = s.pc (2*m+1) := hget.pc_of_ne (by omega)
    obtain ⟨_,hput,hput'⟩ := hput
    obtain ⟨_,hget,hget'⟩ := hget
    refine ⟨t,(hreach.run hput).run hget,ht,?_,?_,?_⟩
    · rw [hkeep 0 (by omega) (by omega),hstale]
    · intro c hc
      rw [hkeep c (by omega) (by omega)]
      exact hidle c (by omega)
    · intro c hc
      by_cases h2 : c = 2*m+2
      · subst h2; rw [hget']; rfl
      · by_cases h1 : c = 2*m+1
        · subst h1; rw [hfirst,hput']; rfl
        · rw [hkeep c h1 h2] at hc ⊢
          exact hret c hc

/-- One ticket past the bound the difference is `2^63`, which reads as negative: a call
that loaded its position `2^63 - 1` tickets ago finds the empty queue full. -/
theorem stale_position_reports_full : ∃ q q' : State (BitVec 64) Nat Nat,
    (system 2#64).Reachable q ∧ q.step 0 false = some q' ∧ q'.tickets.length < 2^63 ∧
      q.pc 0 = .enqLoadSeq 7 0#64 ∧ q'.pc 0 = .enqReturn 7 none ∧ q.enqueuePos ≠ 0#64 ∧
      (∀ c, (q.pc c).dequeuing → (q.pc c).ret.isSome) ∧ q.stored = [] := by
  obtain ⟨q,hreach,hh,hstale,-,hidle⟩ := stale_rounds (2^63-1)
  have hslot : q.slot 0#64 = 0 := hh.slot (by decide) 0
  have hseq : (q.buffer (q.slot 0#64)).sequence = BitVec.ofNat 64 (2^63) := by
    rw [hslot]
    exact hh.free 1 (by decide) (by decide)
  have hdif : dif (BitVec.ofNat 64 (2^63)) 0#64 = -2^63 := by decide
  have hstep : q.step 0 false = some (q.goto 0 (.enqReturn 7 none)) := by
    simp only [State.step,hstale,hseq,hdif]
    rfl
  refine ⟨q,_,hreach,hstep,?_,hstale,State.goto_pc_self .., ?_,hidle,?_⟩
  · change q.tickets.length < 2^63
    rw [hh.tickets]
    decide
  · rw [hh.enqueuePos]
    decide
  · rw [State.stored,hh.takers,List.drop_eq_nil_of_le (by rw [hh.tickets]; exact Nat.le_refl _)]
    rfl

end Flashsale.MpmcQueue
