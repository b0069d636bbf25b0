import Flashsale.MpmcFrame
import Flashsale.Transducer
import Mathlib
set_option autoImplicit false

/-!
Calls made one after the other, with the counters at any value of the word: the
queue is a list of at most `capacity` items, and the wraps of the counters and of
the sequence numbers do not show.
-/

namespace Flashsale.MpmcQueue
open SizeT Transition
variable {w k : Nat} {T ι : Type}

inductive Op (T : Type) where
  | tryEnqueue (data : T)
  | tryDequeue

inductive Ret (T : Type) where
  | enqueued (ok : Bool)
  | dequeued (data : Option T)
  deriving DecidableEq

/-- The list bounded by `capacity`. -/
def fifo (capacity : Nat) (items : List T) : Op T → List T × Ret T
  | .tryEnqueue data =>
      if items.length < capacity then (items ++ [data],.enqueued true)
      else (items,.enqueued false)
  | .tryDequeue =>
      match items with
      | [] => ([],.dequeued none)
      | x :: rest => (rest,.dequeued (some x))

def Op.act (c : ι) : Op T → Act T ι
  | .tryEnqueue data => .enqueue c data
  | .tryDequeue => .dequeue c

def Ret.taken : Ret T → Nat
  | .enqueued _ => 0
  | .dequeued data => data.toList.length

def Pc.ret {W : Type} : Pc W T → Option (Ret T)
  | .enqReturn _ won => some (.enqueued won.isSome)
  | .deqReturn won => some (.dequeued (won.map Prod.snd))
  | _ => none

/-- The queue between two calls, with `d` tickets taken and `items` stored. The
counters and the sequence numbers are those of the tickets, up to their wrap. -/
structure Holds (k : Nat) (q : State (BitVec w) T ι) (d : Nat) (items : List T) : Prop where
  mask : val q.mask + 1 = 2^k
  enqueuePos : q.enqueuePos = ofNat (d + items.length)
  dequeuePos : q.dequeuePos = ofNat d
  tickets : q.tickets.length = d + items.length
  takers : q.takers.length = d
  room : items.length ≤ 2^k
  stored : ∀ j x, items[j]? = some x → q.buffer ((d+j) % 2^k) = ⟨ofNat (d+j+1),x⟩
  free : ∀ j, items.length ≤ j → j < 2^k →
    (q.buffer ((d+j) % 2^k)).sequence = ofNat (d+j)

section Memory
variable {q : State (BitVec w) T ι} {d : Nat} {items : List T} {c : ι} {data : T}

theorem Holds.goto [DecidableEq ι] {p : Pc (BitVec w) T} (h : Holds k q d items) :
    Holds k (q.goto c p) d items := { h with }

theorem Holds.slot (h : Holds k q d items) (hw : k < w) (t : Nat) :
    q.slot (ofNat t) = t % 2^k := ofNat_slot h.mask (by omega) t

theorem Holds.room_dif (h : Holds k q d items) (hw : k < w) :
    dif (q.buffer (q.slot q.enqueuePos)).sequence q.enqueuePos =
      if items.length < 2^k then 0 else 1 - 2^k := by
  have hp : 2^k ≤ 2^(w-1) := Nat.pow_le_pow_right (by decide) (by omega)
  have h0 : 0 < 2^k := Nat.two_pow_pos k
  rw [h.enqueuePos,h.slot hw]
  split
  · rename_i hlt
    rw [h.free _ (Nat.le_refl _) hlt]
    exact dif_eq_zero.mpr rfl
  · have hfull : items.length = 2^k := by have := h.room; omega
    obtain ⟨x,hx⟩ : ∃ x, items[0]? = some x := ⟨items[0],List.getElem?_eq_getElem (by omega)⟩
    have hs := h.stored 0 x hx
    rw [Nat.add_zero] at hs
    rw [hfull,Nat.add_mod_right,hs,dif_ofNat (by omega) (by omega) (by omega)]
    push_cast
    omega

theorem Holds.stored_dif (h : Holds k q d items) (hw : k < w) :
    dif (q.buffer (q.slot q.dequeuePos)).sequence (q.dequeuePos + 1) =
      if items = [] then -1 else 0 := by
  have hp : 2^k ≤ 2^(w-1) := Nat.pow_le_pow_right (by decide) (by omega)
  have h0 : 0 < 2^k := Nat.two_pow_pos k
  rw [h.dequeuePos,h.slot hw,ofNat_succ]
  split
  · rename_i he
    have hs := h.free 0 (by simp [he]) h0
    rw [Nat.add_zero] at hs
    rw [hs,dif_ofNat (by omega) (by omega) (by omega)]
    push_cast
    omega
  · rename_i hne
    obtain ⟨x,rest,rfl⟩ := List.exists_cons_of_ne_nil hne
    have hs := h.stored 0 x rfl
    rw [Nat.add_zero] at hs
    rw [hs]
    exact dif_eq_zero.mpr rfl

theorem Holds.head {x : T} {rest : List T} (h : Holds k q d (x :: rest)) (hw : k < w) :
    (q.buffer (q.slot q.dequeuePos)).data = x := by
  have hs := h.stored 0 x rfl
  rw [Nat.add_zero] at hs
  rw [h.dequeuePos,h.slot hw,hs]

theorem slot_ne {j l : Nat} (hj : j < 2^k) (hl : l < 2^k) (hne : j ≠ l) :
    (d+j) % 2^k ≠ (d+l) % 2^k := by
  intro he
  have := Ring.window_injective (a := d) ⟨by omega,by omega⟩ ⟨by omega,by omega⟩ he
  omega

theorem slot_ne_head {j : Nat} (h0 : 0 < j) (hj : j < 2^k) : (d+j) % 2^k ≠ d % 2^k :=
  slot_ne hj (Nat.two_pow_pos k) (by omega)

theorem storeSeq_buffer (q : State (BitVec w) T ι) (pos seq : BitVec w) (i : Nat) :
    (q.storeSeq pos seq).buffer i =
      if i = q.slot pos then { q.buffer i with sequence := seq } else q.buffer i := by
  by_cases hi : i = q.slot pos <;> simp [State.storeSeq,hi]

theorem writeData_buffer (q : State (BitVec w) T ι) (pos : BitVec w) (data : T) (i : Nat) :
    (q.writeData pos data).buffer i =
      if i = q.slot pos then { q.buffer i with data := data } else q.buffer i := by
  by_cases hi : i = q.slot pos <;> simp [State.writeData,hi]

theorem Holds.push (h : Holds k q d items) (hw : k < w) (hlt : items.length < 2^k) :
    Holds k (((q.winEnqueue c data q.enqueuePos).writeData q.enqueuePos data).storeSeq
      q.enqueuePos (q.enqueuePos + 1)) d (items ++ [data]) := by
  have hslot : q.slot q.enqueuePos = (d + items.length) % 2^k := by
    rw [h.enqueuePos,h.slot hw]
  have hbuf : ∀ i, (((q.winEnqueue c data q.enqueuePos).writeData q.enqueuePos data).storeSeq
      q.enqueuePos (q.enqueuePos + 1)).buffer i =
        if i = (d + items.length) % 2^k then ⟨ofNat (d + items.length + 1),data⟩
        else q.buffer i := by
    intro i
    have hs : ((q.winEnqueue c data q.enqueuePos).writeData q.enqueuePos data).slot q.enqueuePos =
      q.slot q.enqueuePos := rfl
    have hs' : (q.winEnqueue c data q.enqueuePos).slot q.enqueuePos = q.slot q.enqueuePos := rfl
    rw [storeSeq_buffer,writeData_buffer,hs,hs',← hslot,← ofNat_succ,← h.enqueuePos]
    by_cases hi : i = q.slot q.enqueuePos
    · simp [hi]
    · simp [hi,State.winEnqueue]
  refine ⟨h.mask,?_,h.dequeuePos,?_,h.takers,?_,?_,?_⟩
  · change q.enqueuePos + 1 = _
    rw [h.enqueuePos,ofNat_succ,List.length_append,List.length_singleton,Nat.add_assoc]
  · change (q.tickets ++ [(c,data)]).length = _
    simp only [List.length_append,List.length_singleton,h.tickets,Nat.add_assoc]
  · rw [List.length_append,List.length_singleton]; omega
  · intro j x hx
    rw [hbuf]
    by_cases hj : j < items.length
    · rw [List.getElem?_append_left hj] at hx
      rw [if_neg (slot_ne (by omega) hlt (by omega))]
      exact h.stored j x hx
    · obtain rfl : j = items.length := by
        have := (List.getElem?_eq_some_iff.mp hx).1
        rw [List.length_append,List.length_singleton] at this
        omega
      rw [if_pos rfl]
      simpa using hx
  · intro j hj hlt'
    rw [List.length_append,List.length_singleton] at hj
    rw [hbuf,if_neg (slot_ne hlt' hlt (by omega))]
    exact h.free j (by omega) hlt'

theorem Holds.pop {x : T} {rest : List T} (h : Holds k q d (x :: rest)) (hw : k < w) :
    Holds k ((q.winDequeue c q.dequeuePos).storeSeq
      q.dequeuePos (q.dequeuePos + q.mask + 1)) (d+1) rest := by
  have hroom := h.room
  rw [List.length_cons] at hroom
  have hbuf : ∀ i, ((q.winDequeue c q.dequeuePos).storeSeq
      q.dequeuePos (q.dequeuePos + q.mask + 1)).buffer i =
        if i = d % 2^k then { q.buffer i with sequence := ofNat (d + 2^k) } else q.buffer i := by
    intro i
    rw [storeSeq_buffer,← ofNat_lap h.mask,← h.slot hw,← h.dequeuePos]
    rfl
  refine ⟨h.mask,?_,?_,?_,?_,by omega,?_,?_⟩
  · change q.enqueuePos = _
    rw [h.enqueuePos,List.length_cons]
    congr 1; omega
  · change q.dequeuePos + 1 = _
    rw [h.dequeuePos,ofNat_succ]
  · change q.tickets.length = _
    rw [h.tickets,List.length_cons]
    omega
  · change (q.takers ++ [c]).length = _
    rw [List.length_append,List.length_singleton,h.takers]
  · intro j y hy
    have hj := (List.getElem?_eq_some_iff.mp hy).1
    rw [hbuf,show d + 1 + j = d + (j+1) by omega,if_neg (slot_ne_head (by omega) (by omega))]
    exact h.stored (j+1) y hy
  · intro j hj hlt
    rw [hbuf,show d + 1 + j = d + (j+1) by omega]
    by_cases hlast : j + 1 = 2^k
    · rw [hlast,Nat.add_mod_right,if_pos rfl]
    · rw [if_neg (slot_ne_head (by omega) (by omega))]
      exact h.free (j+1) (by rw [List.length_cons]; omega) (by omega)

end Memory

/-- Where a call of `o` stands that was made with `d` tickets taken and `items`
stored. Past its compare-exchange, it is what the stores left to it lead to. -/
def Doing (k : Nat) (q : State (BitVec w) T ι) (d : Nat) (items : List T) (o : Op T) :
    Pc (BitVec w) T → Prop
  | .idle => False
  | .enqLoadPos data => o = .tryEnqueue data ∧ Holds k q d items
  | .enqLoadSeq data pos => o = .tryEnqueue data ∧ Holds k q d items ∧ pos = q.enqueuePos
  | .enqCas data pos => o = .tryEnqueue data ∧ Holds k q d items ∧ pos = q.enqueuePos ∧
      items.length < 2^k
  | .enqWrite data pos => o = .tryEnqueue data ∧ items.length < 2^k ∧
      Holds k ((q.writeData pos data).storeSeq pos (pos + 1)) d (items ++ [data])
  | .enqStoreSeq data pos => o = .tryEnqueue data ∧ items.length < 2^k ∧
      Holds k (q.storeSeq pos (pos + 1)) d (items ++ [data])
  | .enqReturn _ won => (fifo (2^k) items o).2 = .enqueued won.isSome ∧
      Holds k q d (fifo (2^k) items o).1
  | .deqLoadPos => o = .tryDequeue ∧ Holds k q d items
  | .deqLoadSeq pos => o = .tryDequeue ∧ Holds k q d items ∧ pos = q.dequeuePos
  | .deqCas pos => o = .tryDequeue ∧ Holds k q d items ∧ pos = q.dequeuePos ∧ items ≠ []
  | .deqRead pos => o = .tryDequeue ∧
      ∃ rest, items = (q.buffer (q.slot pos)).data :: rest ∧
        Holds k (q.storeSeq pos (pos + q.mask + 1)) (d+1) rest
  | .deqStoreSeq pos data => o = .tryDequeue ∧
      ∃ rest, items = data :: rest ∧ Holds k (q.storeSeq pos (pos + q.mask + 1)) (d+1) rest
  | .deqReturn won => (fifo (2^k) items o).2 = .dequeued (won.map Prod.snd) ∧
      Holds k q (d + won.toList.length) (fifo (2^k) items o).1

/-- The accesses a call has left where no compare-exchange fails and nothing is loaded twice. -/
def Pc.left {W : Type} : Pc W T → Nat
  | .enqLoadPos _ | .deqLoadPos => 5
  | .enqLoadSeq _ _ | .deqLoadSeq _ => 4
  | .enqCas _ _ | .deqCas _ => 3
  | .enqWrite _ _ | .deqRead _ => 2
  | .enqStoreSeq _ _ | .deqStoreSeq _ _ => 1
  | .idle | .enqReturn _ _ | .deqReturn _ => 0

section Calls
variable [DecidableEq ι] {q q' : State (BitVec w) T ι} {d : Nat} {items : List T} {o : Op T}
  {c : ι}

theorem Doing.step {spurious : Bool} (hk : 1 ≤ k) (hw : k < w)
    (hd : Doing k q d items o (q.pc c)) (hs : q.step c spurious = some q') :
    Doing k q' d items o (q'.pc c) ∧ (spurious = false → (q'.pc c).left < (q.pc c).left) := by
  have hpow : (2:Int) ≤ 2^k := by exact_mod_cast Nat.pow_le_pow_right (by decide : 0 < 2) hk
  cases hp : q.pc c with
  | idle | enqReturn data won | deqReturn won => simp [State.step,hp] at hs
  | enqLoadPos data =>
    rw [hp] at hd
    obtain ⟨rfl,hh⟩ := hd
    simp only [State.step,hp,Option.some.injEq] at hs
    subst hs
    rw [State.goto_pc_self]
    exact ⟨⟨rfl,hh.goto,rfl⟩,fun _ => by simp [Pc.left]⟩
  | enqLoadSeq data pos =>
    rw [hp] at hd
    obtain ⟨rfl,hh,rfl⟩ := hd
    simp only [State.step,hp,hh.room_dif hw,Option.some.injEq] at hs
    subst hs
    rw [State.goto_pc_self]
    by_cases hlt : items.length < 2^k
    · simp only [hlt,if_true]
      exact ⟨⟨rfl,hh.goto,rfl,hlt⟩,fun _ => by simp [Pc.left]⟩
    · have hne : ¬(1 - (2:Int)^k = 0) := by omega
      have hneg : 1 - (2:Int)^k < 0 := by omega
      simp only [hlt,if_false,hne,hneg,if_true]
      refine ⟨⟨?_,?_⟩,fun _ => by simp [Pc.left]⟩
      · simp [fifo,hlt]
      · simpa [fifo,hlt] using hh.goto
  | enqCas data pos =>
    rw [hp] at hd
    obtain ⟨rfl,hh,rfl,hlt⟩ := hd
    simp only [State.step,hp,true_and] at hs
    split at hs
    · cases hs
      rw [State.goto_pc_self]
      exact ⟨⟨rfl,hlt,(hh.push (c := c) hw hlt).goto⟩,fun _ => by simp [Pc.left]⟩
    · rename_i hsp
      cases hs
      rw [State.goto_pc_self]
      exact ⟨⟨rfl,hh.goto,rfl⟩,fun h => absurd h hsp⟩
  | enqWrite data pos =>
    rw [hp] at hd
    obtain ⟨rfl,hlt,hh⟩ := hd
    simp only [State.step,hp,Option.some.injEq] at hs
    subst hs
    rw [State.goto_pc_self]
    exact ⟨⟨rfl,hlt,hh.goto⟩,fun _ => by simp [Pc.left]⟩
  | enqStoreSeq data pos =>
    rw [hp] at hd
    obtain ⟨rfl,hlt,hh⟩ := hd
    simp only [State.step,hp,Option.some.injEq] at hs
    subst hs
    rw [State.goto_pc_self]
    refine ⟨⟨?_,?_⟩,fun _ => by simp [Pc.left]⟩
    · simp [fifo,hlt]
    · simpa [fifo,hlt] using hh.goto
  | deqLoadPos =>
    rw [hp] at hd
    obtain ⟨rfl,hh⟩ := hd
    simp only [State.step,hp,Option.some.injEq] at hs
    subst hs
    rw [State.goto_pc_self]
    exact ⟨⟨rfl,hh.goto,rfl⟩,fun _ => by simp [Pc.left]⟩
  | deqLoadSeq pos =>
    rw [hp] at hd
    obtain ⟨rfl,hh,rfl⟩ := hd
    simp only [State.step,hp,hh.stored_dif hw,Option.some.injEq] at hs
    subst hs
    rw [State.goto_pc_self]
    by_cases he : items = []
    · subst he
      exact ⟨⟨rfl,hh.goto⟩,fun _ => by simp [Pc.left]⟩
    · simp only [he,if_false,if_true]
      exact ⟨⟨rfl,hh.goto,rfl,he⟩,fun _ => by simp [Pc.left]⟩
  | deqCas pos =>
    rw [hp] at hd
    obtain ⟨rfl,hh,rfl,hne⟩ := hd
    simp only [State.step,hp,true_and] at hs
    split at hs
    · cases hs
      rw [State.goto_pc_self]
      obtain ⟨x,rest,rfl⟩ := List.exists_cons_of_ne_nil hne
      have hx : x :: rest = (q.buffer (q.slot q.dequeuePos)).data :: rest := by rw [hh.head hw]
      exact ⟨⟨rfl,rest,hx,(hh.pop (c := c) hw).goto⟩,fun _ => by simp [Pc.left]⟩
    · rename_i hsp
      cases hs
      rw [State.goto_pc_self]
      exact ⟨⟨rfl,hh.goto,rfl⟩,fun h => absurd h hsp⟩
  | deqRead pos =>
    rw [hp] at hd
    obtain ⟨rfl,rest,he,hh⟩ := hd
    simp only [State.step,hp,Option.some.injEq] at hs
    subst hs
    rw [State.goto_pc_self]
    exact ⟨⟨rfl,rest,he,hh.goto⟩,fun _ => by simp [Pc.left]⟩
  | deqStoreSeq pos data =>
    rw [hp] at hd
    obtain ⟨rfl,rest,rfl,hh⟩ := hd
    simp only [State.step,hp,Option.some.injEq] at hs
    subst hs
    rw [State.goto_pc_self]
    exact ⟨⟨rfl,hh.goto⟩,fun _ => by simp [Pc.left]⟩

theorem Doing.call (h : Holds k q d items) (hs : q.next (o.act c) = some q') :
    Doing k q' d items o (q'.pc c) := by
  cases o with
  | tryEnqueue data | tryDequeue =>
    obtain ⟨-,rfl⟩ := State.call_eq hs
    rw [State.goto_pc_self]
    exact ⟨rfl,h.goto⟩

omit [DecidableEq ι] in
theorem Doing.returned {p : Pc (BitVec w) T} {r : Ret T} (hd : Doing k q d items o p)
    (hr : p.ret = some r) :
    r = (fifo (2^k) items o).2 ∧ Holds k q (d + r.taken) (fifo (2^k) items o).1 := by
  cases p with
  | enqReturn data won =>
    cases hr
    exact ⟨hd.1.symm,hd.2⟩
  | deqReturn won =>
    cases hr
    refine ⟨hd.1.symm,?_⟩
    cases won <;> exact hd.2
  | _ => cases hr

theorem Doing.step_isSome (hd : Doing k q d items o (q.pc c)) (hr : (q.pc c).ret = none) :
    (q.step c false).isSome := by
  cases hp : q.pc c with
  | idle => rw [hp] at hd; exact hd.elim
  | enqReturn data won | deqReturn won => rw [hp] at hr; cases hr
  | enqCas data pos | deqCas pos => simp only [State.step,hp]; split <;> rfl
  | _ => simp [State.step,hp]

section Run
variable [Inhabited T] {capacity : BitVec w} {flags : List Bool}

theorem Doing.run (hk : 1 ≤ k) (hw : k < w) (hd : Doing k q d items o (q.pc c))
    (hr : (system capacity).Run q (flags.map (.step c)) q') : Doing k q' d items o (q'.pc c) := by
  refine hr.invariant_along (P := fun _ a => ∃ b, a = .step c b)
    (I := fun s => Doing k s d items o (s.pc c)) ?_ (System.along_of_forall ?_) hd
  · rintro s _ t hs ⟨b,rfl⟩ hn
    exact (hs.step hk hw hn).1
  · intro a ha _
    obtain ⟨b,-,rfl⟩ := List.mem_map.mp ha
    exact ⟨b,rfl⟩

variable (capacity) in
theorem Doing.returns (hk : 1 ≤ k) (hw : k < w) (hd : Doing k q d items o (q.pc c)) :
    ∃ (flags : List Bool) (q' : State (BitVec w) T ι),
      (system capacity).Run q (flags.map (.step c)) q' ∧ (q'.pc c).ret.isSome := by
  obtain ⟨m,q',hrun,-,hret⟩ := System.run_until (M := system capacity)
    (I := fun s => Doing k s d items o (s.pc c)) (P := fun s => (s.pc c).ret.isSome)
    (fun s => (s.pc c).left) (.step c false) (fun s hds hnot => by
      obtain ⟨t,ht⟩ := Option.isSome_iff_exists.mp (hds.step_isSome (by simpa using hnot))
      obtain ⟨hdt,hlt⟩ := hds.step hk hw ht
      exact ⟨t,ht,hdt,hlt rfl⟩) hd
  exact ⟨List.replicate m false,q',by rw [List.map_replicate]; exact hrun,hret⟩

theorem run_pc_of_ne {c' : ι} (hc : c' ≠ c)
    (hr : (system capacity).Run q (flags.map (.step c)) q') : q'.pc c' = q.pc c' := by
  refine hr.invariant_along (P := fun _ a => ∃ b, a = .step c b)
    (I := fun s => s.pc c' = q.pc c') ?_ (System.along_of_forall ?_) rfl
  · rintro s _ t hs ⟨b,rfl⟩ hn
    exact (State.step_pc_of_ne hn hc).trans hs
  · intro a ha _
    obtain ⟨b,-,rfl⟩ := List.mem_map.mp ha
    exact ⟨b,rfl⟩

/-- A whole call: `c` calls `o` in `q` and takes its steps, some compare-exchanges
failing, up to its return of `r`. -/
def Called (capacity : BitVec w) (q : State (BitVec w) T ι) (c : ι) (o : Op T) (r : Ret T)
    (q' : State (BitVec w) T ι) : Prop :=
  ∃ flags : List Bool, (system capacity).Run q (o.act c :: flags.map (.step c)) q' ∧
    (q'.pc c).ret = some r

inductive Calls (capacity : BitVec w) :
    State (BitVec w) T ι → List (ι × Op T) → List (Ret T) → State (BitVec w) T ι → Prop where
  | nil (q : State (BitVec w) T ι) : Calls capacity q [] [] q
  | cons {q s t : State (BitVec w) T ι} {c : ι} {o : Op T} {r : Ret T} {calls : List (ι × Op T)}
      {rs : List (Ret T)} : Called capacity q c o r s → Calls capacity s calls rs t →
      Calls capacity q ((c,o) :: calls) (r :: rs) t

/-- A whole call does to the queue what it does to the list. -/
theorem Called.fifo {r : Ret T} (hk : 1 ≤ k) (hw : k < w) (h : Holds k q d items)
    (hc : Called capacity q c o r q') :
    r = (fifo (2^k) items o).2 ∧ Holds k q' (d + r.taken) (fifo (2^k) items o).1 := by
  obtain ⟨flags,hrun,hr⟩ := hc
  cases hrun with
  | cons hn hrest => exact ((Doing.call h hn).run hk hw hrest).returned hr

theorem Called.pc_of_ne {c' : ι} {r : Ret T} (hne : c' ≠ c) (hc : Called capacity q c o r q') :
    q'.pc c' = q.pc c' := by
  obtain ⟨flags,hrun,-⟩ := hc
  cases hrun with
  | cons hn hrest =>
    rw [run_pc_of_ne hne hrest]
    cases o with
    | tryEnqueue data | tryDequeue =>
      obtain ⟨-,rfl⟩ := State.call_eq hn
      exact State.goto_pc_of_ne hne

variable (capacity) in
theorem Holds.called (hk : 1 ≤ k) (hw : k < w) (h : Holds k q d items) (hc : q.pc c = .idle)
    (o : Op T) : ∃ r q', Called capacity q c o r q' := by
  obtain ⟨s,hs⟩ : ∃ s, q.next (o.act c) = some s := by
    cases o <;> exact ⟨_,by simp only [Op.act,State.next,State.call,hc]; rfl⟩
  obtain ⟨flags,q',hrun,hret⟩ := (Doing.call h hs).returns capacity hk hw
  obtain ⟨r,hr⟩ := Option.isSome_iff_exists.mp hret
  exact ⟨r,q',flags,.cons hs hrun,hr⟩

theorem Calls.outputs {calls : List (ι × Op T)} {rs : List (Ret T)} (hk : 1 ≤ k) (hw : k < w)
    (h : Holds k q d items) (hc : Calls capacity q calls rs q') :
    rs = Transducer.outputs (fifo (2^k)) items (calls.map Prod.snd) := by
  induction hc generalizing d items with
  | nil q => rfl
  | @cons q s t c o r calls rs hcall _ ih =>
    obtain ⟨rfl,hd'⟩ := hcall.fifo hk hw h
    simp only [List.map_cons,Transducer.outputs_cons,ih hd']

theorem Holds.calls (hk : 1 ≤ k) (hw : k < w) (h : Holds k q d items)
    {calls : List (ι × Op T)} (hnodup : (calls.map Prod.fst).Nodup)
    (hidle : ∀ c ∈ calls.map Prod.fst, q.pc c = .idle) : ∃ rs q', Calls capacity q calls rs q' := by
  induction calls generalizing q d items with
  | nil => exact ⟨[],q,.nil q⟩
  | cons x calls ih =>
    obtain ⟨c,o⟩ := x
    rw [List.map_cons,List.nodup_cons] at hnodup
    obtain ⟨r,s,hcall⟩ := h.called capacity hk hw (hidle c (by simp)) o
    obtain ⟨-,hd'⟩ := hcall.fifo hk hw h
    have hrest : ∀ c' ∈ calls.map Prod.fst, s.pc c' = .idle := by
      intro c' hc'
      have hne : c' ≠ c := by rintro rfl; exact hnodup.1 hc'
      rw [hcall.pc_of_ne hne]
      exact hidle c' (List.mem_cons_of_mem _ hc')
    obtain ⟨rs,q',hcs⟩ := ih hd' hnodup.2 hrest
    exact ⟨r :: rs,q',.cons hcall hcs⟩

end Run
end Calls

theorem create_holds [Inhabited T] (hk : 1 ≤ k) (hw : k < w) :
    ∃ q : State (BitVec w) T ι, create (ofNat (2^k)) = some q ∧ Holds k q 0 [] ∧
      ∀ c, q.pc c = .idle := by
  have hlt : 2^k < 2^w := Nat.pow_lt_pow_right (by decide) hw
  have hle : 2^1 ≤ 2^k := Nat.pow_le_pow_right (by decide) hk
  have hval : val (ofNat (2^k) : BitVec w) = 2^k := val_ofNat hlt
  obtain ⟨q,hq⟩ := Option.isSome_iff_exists.mp ((create_isSome_iff (T := T) (ι := ι)).mpr
    ⟨by rw [hval]; exact hle,k,hval⟩)
  have hinv := create_inv hq
  rw [hval] at hinv
  refine ⟨q,hq,?_⟩
  unfold create at hq
  split at hq
  · cases hq
  · cases hq
    refine ⟨⟨hinv.mask,rfl,rfl,rfl,rfl,Nat.zero_le _,?_,?_⟩,fun _ => rfl⟩
    · intro j x hx; cases hx
    · intro j _ hj
      rw [Nat.zero_add,Nat.mod_eq_of_lt hj]

/-- The queue is a list of at most `2^k` items to calls that do not overlap, however
often its counters have wrapped. -/
theorem sequential_fifo [Inhabited T] [DecidableEq ι] (hk : 1 ≤ k) (hw : k < w) :
    ∃ q₀ : State (BitVec w) T ι, create (ofNat (2^k)) = some q₀ ∧
      (∀ calls : List (ι × Op T), (calls.map Prod.fst).Nodup →
        ∃ rs q, Calls (ofNat (2^k)) q₀ calls rs q) ∧
      ∀ calls rs q, Calls (ofNat (2^k)) q₀ calls rs q →
        rs = Transducer.outputs (fifo (2^k)) [] (calls.map Prod.snd) := by
  obtain ⟨q₀,hq,hh,hidle⟩ := create_holds (T := T) (ι := ι) hk hw
  exact ⟨q₀,hq,fun _ hnodup => hh.calls hk hw hnodup (fun c _ => hidle c),
    fun _ _ _ hcalls => hcalls.outputs hk hw hh⟩

/-- Nine items through two cells, one at a time, under counters of three bits. -/
def laps : List (Nat × Op Nat) :=
  (List.range 9).flatMap (fun i => [(2*i,.tryEnqueue i),(2*i+1,.tryDequeue)])

theorem sequential_fifo_laps : ∃ (q₀ q : State (BitVec 3) Nat Nat) (rs : List (Ret Nat)),
    create (ofNat (2^1)) = some q₀ ∧ Calls (ofNat (2^1)) q₀ laps rs q ∧
      rs = (List.range 9).flatMap (fun i => [.enqueued true,.dequeued (some i)]) := by
  obtain ⟨q₀,hq,hrun,hout⟩ :=
    sequential_fifo (w := 3) (k := 1) (T := Nat) (ι := Nat) (by decide) (by decide)
  obtain ⟨rs,q,hcalls⟩ := hrun laps (by decide)
  refine ⟨q₀,q,rs,hq,hcalls,?_⟩
  rw [hout laps rs q hcalls]
  decide

end Flashsale.MpmcQueue
