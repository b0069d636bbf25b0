import Flashsale.MpmcReports
set_option autoImplicit false

/-!
The queue over numbers that never wrap and the queue over words: with the tickets
and the capacity within half the word, their runs are the same.
-/

namespace Flashsale.MpmcQueue
open Transition SizeT
variable {T ι : Type}

section Words
variable {w : Nat}

def Cell.toWord (w : Nat) (x : Cell Nat T) : Cell (BitVec w) T := ⟨ofNat x.sequence,x.data⟩

def Pc.toWord (w : Nat) : Pc Nat T → Pc (BitVec w) T
  | .idle => .idle
  | .enqLoadPos data => .enqLoadPos data
  | .enqLoadSeq data pos => .enqLoadSeq data (ofNat pos)
  | .enqCas data pos => .enqCas data (ofNat pos)
  | .enqWrite data pos => .enqWrite data (ofNat pos)
  | .enqStoreSeq data pos => .enqStoreSeq data (ofNat pos)
  | .enqReturn data won => .enqReturn data (won.map ofNat)
  | .deqLoadPos => .deqLoadPos
  | .deqLoadSeq pos => .deqLoadSeq (ofNat pos)
  | .deqCas pos => .deqCas (ofNat pos)
  | .deqRead pos => .deqRead (ofNat pos)
  | .deqStoreSeq pos data => .deqStoreSeq (ofNat pos) data
  | .deqReturn won => .deqReturn (won.map fun x => (ofNat x.1,x.2))

/-- The queue with every position cut to a word. -/
def State.toWord (w : Nat) (q : State Nat T ι) : State (BitVec w) T ι where
  buffer i := (q.buffer i).toWord w
  mask := ofNat q.mask
  enqueuePos := ofNat q.enqueuePos
  dequeuePos := ofNat q.dequeuePos
  pc c := (q.pc c).toWord w
  tickets := q.tickets
  takers := q.takers

end Words

section Cells
variable {w n : Nat} {q : State Nat T ι} {c : ι}

theorem ofNat_inj {s t : Nat} (hs : s < 2^w) (ht : t < 2^w) :
    (ofNat s : BitVec w) = ofNat t ↔ s = t := by
  constructor
  · intro he
    have hval := congrArg val he
    rwa [val_ofNat (show s < 2^w from hs),val_ofNat (show t < 2^w from ht)] at hval
  · rintro rfl
    rfl

theorem Inv.slot_toWord (h : Inv n q) (hn : n < 2^w) (pos : Nat) :
    (q.toWord w).slot (ofNat pos) = q.slot pos := by
  have hmask := h.mask
  obtain ⟨k,rfl⟩ := h.pow
  have hk : k ≤ w := (Nat.pow_le_pow_iff_right (by decide)).mp hn.le
  rw [val_nat] at hmask
  have hmask' : val (ofNat q.mask : BitVec w) + 1 = 2^k := by
    rw [val_ofNat (show q.mask < 2^w by omega),hmask]
  rw [h.slot,val_nat]
  exact ofNat_slot hmask' hk pos

theorem Inv.dif_toWord (h : Inv n q) (hw : 0 < w) (hb : q.tickets.length + n ≤ 2^(w-1))
    {pos i : Nat} (hpos : pos ≤ q.tickets.length + 1) :
    dif ((q.toWord w).buffer (q.slot i)).sequence (ofNat pos) =
      dif (q.buffer (q.slot i)).sequence pos := by
  have h2 := h.two_le
  have hseq : (q.buffer (q.slot i)).sequence < q.tickets.length + n := by
    have hs := h.sequence i
    rw [val_nat] at hs
    rw [hs]
    exact h.seqAt_lt _
  exact dif_ofNat hw (by omega) (by omega)

theorem Inv.storeSeq_toWord (h : Inv n q) (hn : n < 2^w) (pos seq : Nat) :
    (q.storeSeq pos seq).toWord w = (q.toWord w).storeSeq (ofNat pos) (ofNat seq) := by
  simp only [State.storeSeq,h.slot_toWord hn]
  simp only [State.toWord,State.mk.injEq,and_true]
  funext i
  by_cases hi : i = q.slot pos <;> simp [hi,Cell.toWord]

theorem Inv.writeData_toWord (h : Inv n q) (hn : n < 2^w) (pos : Nat) (data : T) :
    (q.writeData pos data).toWord w = (q.toWord w).writeData (ofNat pos) data := by
  simp only [State.writeData,h.slot_toWord hn]
  simp only [State.toWord,State.mk.injEq,and_true]
  funext i
  by_cases hi : i = q.slot pos <;> simp [hi,Cell.toWord]

theorem State.winEnqueue_toWord (data : T) (pos : Nat) :
    (q.winEnqueue c data pos).toWord w = (q.toWord w).winEnqueue c data (ofNat pos) := by
  simp only [State.winEnqueue,ofNat_succ]
  rfl

theorem State.winDequeue_toWord (pos : Nat) :
    (q.winDequeue c pos).toWord w = (q.toWord w).winDequeue c (ofNat pos) := by
  simp only [State.winDequeue,ofNat_succ]
  rfl

end Cells

section Steps
variable [DecidableEq ι] {w n : Nat} {q : State Nat T ι} {c : ι}

theorem State.goto_toWord (p : Pc Nat T) :
    (q.goto c p).toWord w = (q.toWord w).goto c (p.toWord w) := by
  simp only [State.toWord,State.goto,State.mk.injEq,true_and,and_true]
  funext c'
  by_cases hc : c' = c <;> simp [hc]

/-- An access over words is the access over numbers. -/
theorem Inv.step_toWord (h : Inv n q) (hw : 0 < w) (hb : q.tickets.length + n ≤ 2^(w-1))
    (spurious : Bool) :
    (q.toWord w).step c spurious = (q.step c spurious).map (State.toWord w) := by
  have hpow : 2^w = 2 * 2^(w-1) := by rw [← Nat.pow_succ']; congr 1; omega
  have h2 := h.two_le
  have hn : n < 2^w := by omega
  have horder := h.order
  have hE : q.enqueuePos = q.tickets.length := h.enqueuePos
  have hD : q.dequeuePos = q.takers.length := h.dequeuePos
  have hok := h.pcs c
  have hpc : (q.toWord w).pc c = (q.pc c).toWord w := rfl
  unfold State.step
  rw [hpc]
  cases hp : q.pc c with
  | idle | enqReturn | deqReturn => rfl
  | enqLoadPos data | deqLoadPos =>
    simp only [Pc.toWord,Option.map_some,State.goto_toWord]
    rfl
  | enqLoadSeq data pos =>
    rw [hp] at hok
    have hpos : pos ≤ q.tickets.length := hok
    simp only [Pc.toWord,Option.map_some,State.goto_toWord,h.slot_toWord hn,
      h.dif_toWord hw hb (show pos ≤ q.tickets.length + 1 by omega)]
    congr 2
    split <;> [rfl; split <;> rfl]
  | deqLoadSeq pos =>
    rw [hp] at hok
    have hpos : pos ≤ q.takers.length := hok
    simp only [Pc.toWord,Option.map_some,State.goto_toWord,h.slot_toWord hn,ofNat_succ,
      h.dif_toWord hw hb (show pos + 1 ≤ q.tickets.length + 1 by omega)]
    congr 2
    split <;> [rfl; split <;> rfl]
  | enqCas data pos =>
    rw [hp] at hok
    have hpos : pos ≤ q.tickets.length := hok.1
    have hcas : (q.toWord w).enqueuePos = ofNat pos ↔ q.enqueuePos = pos :=
      ofNat_inj (by omega) (by omega)
    simp only [Pc.toWord,hcas]
    split
    · simp only [Option.map_some,State.goto_toWord,State.winEnqueue_toWord]
      rfl
    · simp only [Option.map_some,State.goto_toWord]
      rfl
  | deqCas pos =>
    rw [hp] at hok
    have hpos : pos ≤ q.takers.length := hok.1
    have hcas : (q.toWord w).dequeuePos = ofNat pos ↔ q.dequeuePos = pos :=
      ofNat_inj (by omega) (by omega)
    simp only [Pc.toWord,hcas]
    split
    · simp only [Option.map_some,State.goto_toWord,State.winDequeue_toWord]
      rfl
    · simp only [Option.map_some,State.goto_toWord]
      rfl
  | enqWrite data pos =>
    simp only [Pc.toWord,Option.map_some,State.goto_toWord,h.writeData_toWord hn]
  | enqStoreSeq data pos =>
    simp only [Pc.toWord,Option.map_some,State.goto_toWord,h.storeSeq_toWord hn,ofNat_succ]
  | deqRead pos =>
    simp only [Pc.toWord,Option.map_some,State.goto_toWord,h.slot_toWord hn]
    rfl
  | deqStoreSeq pos data =>
    have hlap : (ofNat pos : BitVec w) + (q.toWord w).mask + 1 = ofNat (pos + q.mask + 1) := by
      rw [← ofNat_succ,ofNat_add]
      rfl
    simp only [Pc.toWord,Option.map_some,State.goto_toWord,h.storeSeq_toWord hn,hlap]

theorem Inv.next_toWord (h : Inv n q) (hw : 0 < w) (hb : q.tickets.length + n ≤ 2^(w-1))
    (a : Act T ι) : (q.toWord w).next a = (q.next a).map (State.toWord w) := by
  have hcall : ∀ c p, (q.toWord w).call c (p.toWord w) = (q.call c p).map (State.toWord w) := by
    intro c p
    have hpc : (q.toWord w).pc c = (q.pc c).toWord w := rfl
    unfold State.call
    rw [hpc]
    cases q.pc c with
    | idle => simp only [Pc.toWord,Option.map_some,State.goto_toWord]
    | _ => rfl
  cases a with
  | enqueue c data => exact hcall c (.enqLoadPos data)
  | dequeue c => exact hcall c .deqLoadPos
  | step c spurious => exact h.step_toWord hw hb spurious

end Steps

section Runs
variable [Inhabited T] {w n : Nat}

theorem create_toWord (hw : 0 < w) (hn : n ≤ 2^(w-1)) :
    create (ofNat n : BitVec w) = (create n : Option (State Nat T ι)).map (State.toWord w) := by
  have hpow : 2^w = 2 * 2^(w-1) := by rw [← Nat.pow_succ']; congr 1; omega
  have hone : 0 < 2^(w-1) := Nat.two_pow_pos _
  have hval : val (ofNat n : BitVec w) = n := val_ofNat (show n < 2^w by omega)
  unfold create
  rw [hval]
  by_cases h2 : n < 2
  · simp [h2]
  have hsub : (ofNat n : BitVec w) - 1 = ofNat (n - 1) := by
    have h1 : val (1 : BitVec w) = 1 := val_one (show 1 < 2^w by omega)
    refine val_injective ?_
    rw [val_sub (by omega),h1,hval,val_ofNat (show n - 1 < 2^w by omega)]
  have hand : val ((ofNat n : BitVec w) &&& (ofNat n - 1)) = n &&& (n - 1) := by
    rw [val_and,hsub,hval,val_ofNat (show n - 1 < 2^w by omega)]
  rw [hand,hsub]
  change _ = Option.map _ (if n < 2 ∨ n &&& (n - 1) ≠ 0 then none else _)
  split <;> rfl

variable [DecidableEq ι] {q : State Nat T ι} {p : State (BitVec w) T ι} {as : List (Act T ι)}

theorem run_tickets_le {W : Type} [SizeT W] [DecidableEq W] {capacity : W} {s t : State W T ι}
    (hr : (system capacity).Run s as t) : s.tickets.length ≤ t.tickets.length :=
  hr.relates (R := fun s t => s.tickets.length ≤ t.tickets.length) (fun _ => Nat.le_refl _)
    (fun _ _ _ => Nat.le_trans) fun _ _ _ hn => (State.next_tickets hn).length_le

/-- The runs over words are, act by act, those over numbers, up to the first state
with too many tickets. -/
theorem run_toWord_iff (hw : 0 < w) (h : Inv n q) (hp : p.tickets.length + n ≤ 2^(w-1)) :
    (system (ofNat n : BitVec w)).Run (q.toWord w) as p ↔
      ∃ q', (system n).Run q as q' ∧ q'.toWord w = p := by
  induction as generalizing q with
  | nil =>
    constructor
    · rintro ⟨⟩
      exact ⟨q,.nil q,rfl⟩
    · rintro ⟨q',⟨⟩,rfl⟩
      exact .nil _
  | cons a as ih =>
    constructor
    · intro hr
      have hle : q.tickets.length ≤ p.tickets.length := run_tickets_le hr
      cases hr with
      | cons hn hr =>
        obtain ⟨t,ht,rfl⟩ := Option.map_eq_some_iff.mp ((h.next_toWord hw (by omega) a).symm.trans hn)
        obtain ⟨q',hr',rfl⟩ := (ih (h.next trivial ht)).mp hr
        exact ⟨q',.cons ht hr',rfl⟩
    · rintro ⟨q',hr,rfl⟩
      have hle : q.tickets.length ≤ q'.tickets.length := run_tickets_le hr
      have hp : q'.tickets.length + n ≤ 2^(w-1) := hp
      cases hr with
      | @cons _ t _ _ _ hn hr =>
        refine .cons ?_ ((ih (h.next trivial hn)).mpr ⟨q',hr,rfl⟩)
        exact (h.next_toWord hw (by omega) a).trans (congrArg (Option.map _) hn)

theorem reachable_toWord_iff (hw : 0 < w) (hp : p.tickets.length + n ≤ 2^(w-1)) :
    (system (ofNat n : BitVec w)).Reachable p ↔
      ∃ q, (system n).Reachable q ∧ q.toWord w = p := by
  have hcreate := create_toWord (T := T) (ι := ι) hw (show n ≤ 2^(w-1) by omega)
  constructor
  · rintro ⟨p₀,as,hi,hr⟩
    obtain ⟨q₀,hq,rfl⟩ := Option.map_eq_some_iff.mp (hcreate.symm.trans hi)
    obtain ⟨q,hr',rfl⟩ := (run_toWord_iff hw (create_inv hq) hp).mp hr
    exact ⟨q,⟨q₀,as,hq,hr'⟩,rfl⟩
  · rintro ⟨q,⟨q₀,as,hi,hr⟩,rfl⟩
    refine ⟨q₀.toWord w,as,?_,(run_toWord_iff hw (create_inv hi) hp).mpr ⟨q,hr,rfl⟩⟩
    exact hcreate.trans (congrArg (Option.map _) hi)

end Runs
end Flashsale.MpmcQueue
