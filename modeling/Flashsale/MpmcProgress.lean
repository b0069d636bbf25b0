import Flashsale.MpmcReports
import Mathlib
set_option autoImplicit false

/-!
The retry loops: an iteration that is not the last, and does not end in a spurious
failure, is paid for by a ticket that another call has won.
-/

namespace Flashsale.MpmcQueue
open SizeT Transition
variable {W T ι : Type}

/-- `try_enqueue` or `try_dequeue`. -/
inductive Side where
  | enqueue
  | dequeue

inductive Loop (W : Type) where
  | loadPos
  | loadSeq (pos : W)
  | cas (pos : W)
  | past (left : Nat)
  | out

def Pc.loop : Side → Pc W T → Loop W
  | .enqueue, .enqLoadPos _ => .loadPos
  | .enqueue, .enqLoadSeq _ pos => .loadSeq pos
  | .enqueue, .enqCas _ pos => .cas pos
  | .enqueue, .enqWrite _ _ => .past 2
  | .enqueue, .enqStoreSeq _ _ => .past 1
  | .enqueue, .enqReturn _ _ => .past 0
  | .dequeue, .deqLoadPos => .loadPos
  | .dequeue, .deqLoadSeq pos => .loadSeq pos
  | .dequeue, .deqCas pos => .cas pos
  | .dequeue, .deqRead _ => .past 2
  | .dequeue, .deqStoreSeq _ _ => .past 1
  | .dequeue, .deqReturn _ => .past 0
  | _, _ => .out

def State.counter (q : State W T ι) : Side → W
  | .enqueue => q.enqueuePos
  | .dequeue => q.dequeuePos

def State.winners (q : State W T ι) : Side → List ι
  | .enqueue => q.tickets.map Prod.fst
  | .dequeue => q.takers

section Steps
variable [DecidableEq ι] [SizeT W] [DecidableEq W] {q q' : State W T ι} {c : ι} {sd : Side}

/-- What a step does to the loop of its call: `pos` is compared with the counter, and the
compare-exchange wins or not. -/
inductive LoopStep (counter : W) (spurious : Bool) : Loop W → Loop W → Bool → Prop where
  | load : LoopStep counter spurious .loadPos (.loadSeq counter) false
  | equal {pos : W} : LoopStep counter spurious (.loadSeq pos) (.cas pos) false
  | refused {pos : W} : LoopStep counter spurious (.loadSeq pos) (.past 0) false
  | behind {pos : W} (ne : pos ≠ counter) :
      LoopStep counter spurious (.loadSeq pos) .loadPos false
  | failed {pos : W} (why : pos = counter → spurious = true) :
      LoopStep counter spurious (.cas pos) (.loadSeq counter) false
  | won : LoopStep counter spurious (.cas counter) (.past 2) true
  | past {left : Nat} : LoopStep counter spurious (.past (left + 1)) (.past left) false

def Behind (q : State W T ι) : Prop :=
  (∀ pos, dif (q.buffer (q.slot pos)).sequence pos > 0 → pos ≠ q.enqueuePos) ∧
    ∀ pos, dif (q.buffer (q.slot pos)).sequence (pos + 1) > 0 → pos ≠ q.dequeuePos

omit [SizeT W] [DecidableEq W] in
theorem LoopStep.goto {s : State W T ι} {p : Pc W T} {l : Loop W} {spurious : Bool} (won : Bool)
    (hw : s.winners sd = q.winners sd ++ if won then [c] else [])
    (h : LoopStep (q.counter sd) spurious l (p.loop sd) won) : ∃ won,
      LoopStep (q.counter sd) spurious l (((s.goto c p).pc c).loop sd) won ∧
      (s.goto c p).winners sd = q.winners sd ++ if won then [c] else [] :=
  ⟨won,by rw [State.goto_pc_self]; exact h,by cases sd <;> exact hw⟩

omit [SizeT W] [DecidableEq ι] [DecidableEq W] in
theorem LoopStep.compared {counter pos : W} {d : Int} {spurious : Bool} {equal less more : Pc W T}
    (hb : d > 0 → pos ≠ counter) (he : equal.loop sd = .cas pos) (hl : less.loop sd = .past 0)
    (hm : more.loop sd = .loadPos) : LoopStep counter spurious (.loadSeq pos)
      ((if d = 0 then equal else if d < 0 then less else more).loop sd) false := by
  split
  · rw [he]
    exact .equal
  · split
    · rw [hl]
      exact .refused
    · rw [hm]
      exact .behind (hb (by omega))

omit [SizeT W] [DecidableEq W] in
theorem LoopStep.not_won {counter pos : W} {spurious : Bool}
    (h : ¬ (counter = pos ∧ spurious = false)) :
    LoopStep counter spurious (.cas pos) (.loadSeq counter) false := by
  refine .failed fun he => ?_
  by_contra hs
  exact h ⟨he.symm,by simpa using hs⟩

theorem State.step_loop {spurious : Bool} (hb : Behind q) (hn : q.step c spurious = some q')
    (hin : (q.pc c).loop sd ≠ .out) : ∃ won,
      LoopStep (q.counter sd) spurious ((q.pc c).loop sd) ((q'.pc c).loop sd) won ∧
      q'.winners sd = q.winners sd ++ if won then [c] else [] := by
  have hsame : q.winners sd = q.winners sd ++ if false then [c] else [] := (List.append_nil _).symm
  cases hp : q.pc c with
  | idle | enqReturn _ _ | deqReturn _ => simp [State.step,hp] at hn
  | enqLoadPos data | deqLoadPos =>
    simp only [State.step,hp,Option.some.injEq] at hn
    subst hn
    cases sd
    all_goals first
      | exact absurd (by rw [hp]; rfl) hin
      | exact LoopStep.goto false hsame .load
  | enqWrite data pos | enqStoreSeq data pos | deqRead pos | deqStoreSeq pos data =>
    simp only [State.step,hp,Option.some.injEq] at hn
    subst hn
    cases sd
    all_goals first
      | exact absurd (by rw [hp]; rfl) hin
      | exact LoopStep.goto false hsame .past
  | enqLoadSeq data pos =>
    simp only [State.step,hp,Option.some.injEq] at hn
    subst hn
    cases sd with
    | dequeue => exact absurd (by rw [hp]; rfl) hin
    | enqueue => exact LoopStep.goto false hsame (.compared (hb.1 pos) rfl rfl rfl)
  | deqLoadSeq pos =>
    simp only [State.step,hp,Option.some.injEq] at hn
    subst hn
    cases sd with
    | enqueue => exact absurd (by rw [hp]; rfl) hin
    | dequeue => exact LoopStep.goto false hsame (.compared (hb.2 pos) rfl rfl rfl)
  | enqCas data pos =>
    simp only [State.step,hp] at hn
    cases sd with
    | dequeue => exact absurd (by rw [hp]; rfl) hin
    | enqueue =>
      split at hn
      · rename_i hwin
        cases hn
        exact LoopStep.goto true (by simp [State.winners,State.winEnqueue]) (hwin.1 ▸ .won)
      · rename_i hlose
        cases hn
        exact LoopStep.goto false hsame (.not_won hlose)
  | deqCas pos =>
    simp only [State.step,hp] at hn
    cases sd with
    | enqueue => exact absurd (by rw [hp]; rfl) hin
    | dequeue =>
      split at hn
      · rename_i hwin
        cases hn
        exact LoopStep.goto true (by simp [State.winners,State.winDequeue]) (hwin.1 ▸ .won)
      · rename_i hlose
        cases hn
        exact LoopStep.goto false hsame (.not_won hlose)

theorem State.next_others {a : Act T ι} (hn : q.next a = some q') (ha : ∀ b, a ≠ .step c b)
    (hin : (q.pc c).loop sd ≠ .out) : q'.pc c = q.pc c ∧
      ∃ others, q'.winners sd = q.winners sd ++ others ∧ c ∉ others := by
  cases a with
  | enqueue c' data | dequeue c' =>
    obtain ⟨hidle,rfl⟩ := State.call_eq hn
    have hne : c ≠ c' := by
      rintro rfl
      rw [hidle] at hin
      cases sd <;> exact hin rfl
    exact ⟨State.goto_pc_of_ne hne,[],by cases sd <;> simp [State.winners,State.goto],by simp⟩
  | step c' b =>
    have hne : c ≠ c' := by
      rintro rfl
      exact ha b rfl
    refine ⟨State.step_pc_of_ne hn hne,?_⟩
    cases (State.step_effect hn).2.2 with
    | quiet tickets takers _ =>
      exact ⟨[],by cases sd <;> simp [State.winners,tickets,takers],by simp⟩
    | won data _ tickets takers =>
      cases sd with
      | enqueue => exact ⟨[c'],by simp [State.winners,tickets],by simpa using hne⟩
      | dequeue => exact ⟨[],by simp [State.winners,takers],by simp⟩
    | took _ _ _ tickets takers =>
      cases sd with
      | enqueue => exact ⟨[],by simp [State.winners,tickets],by simp⟩
      | dequeue => exact ⟨[c'],by simp [State.winners,takers],by simpa using hne⟩

def iterates (sd : Side) (c : ι) (_ : State W T ι) (a : Act T ι) (q' : State W T ι) : Nat :=
  match a,(q'.pc c).loop sd with
  | .step c' _,.loadSeq _ => if c' = c then 1 else 0
  | _,_ => 0

def failsSpuriously (sd : Side) (c : ι) (q : State W T ι) (a : Act T ι) (_ : State W T ι) : Nat :=
  match a,(q.pc c).loop sd with
  | .step c' true,.cas pos => if c' = c ∧ pos = q.counter sd then 1 else 0
  | _,_ => 0

def steps (c : ι) (_ : State W T ι) (a : Act T ι) (_ : State W T ι) : Nat :=
  match a with
  | .step c' _ => if c' = c then 1 else 0
  | _ => 0

def State.wonByOthers (q : State W T ι) (sd : Side) (c : ι) (start : Nat) : Nat :=
  ((q.winners sd).drop start).countP fun d => d ≠ c

/-- Where `iterations` and `spurious` failures bring a loop that began at `base`, with
`start` tickets won before and `others` by other calls since, of `len` in all. -/
def Advance (base start iterations spurious len others : Nat) : Loop W → Prop
  | .loadPos => base + iterations ≤ len + spurious ∧ len = start + others
  | .loadSeq pos | .cas pos =>
      base + iterations ≤ val pos + spurious + 1 ∧ val pos ≤ len ∧ len = start + others
  | .past _ => base + iterations ≤ start + others + spurious + 1
  | .out => False

def Paced (iterations steps : Nat) : Loop W → Prop
  | .loadPos | .cas _ => steps ≤ 2*iterations
  | .loadSeq _ => steps + 1 ≤ 2*iterations
  | .past left => steps + left ≤ 2*iterations + 3
  | .out => False

omit [SizeT W] [DecidableEq W] in
theorem State.wonByOthers_append {others : List ι} {start : Nat}
    (hstart : start ≤ (q.winners sd).length) (hw : q'.winners sd = q.winners sd ++ others) :
    q'.wonByOthers sd c start = q.wonByOthers sd c start + others.countP fun d => d ≠ c := by
  rw [State.wonByOthers,hw,List.drop_append_of_le_length hstart,List.countP_append]
  rfl

theorem Advance.own {base start iterations spurious : Nat} {b : Bool} {won : Bool}
    (h : Advance base start iterations spurious (q.winners sd).length
      (q.wonByOthers sd c start) ((q.pc c).loop sd))
    (hc : val (q.counter sd) = (q.winners sd).length) (hstart : start ≤ (q.winners sd).length)
    (hl : LoopStep (q.counter sd) b ((q.pc c).loop sd) ((q'.pc c).loop sd) won)
    (hw : q'.winners sd = q.winners sd ++ if won then [c] else []) :
    Advance base start (iterations + iterates sd c q (.step c b) q')
      (spurious + failsSpuriously sd c q (.step c b) q') (q'.winners sd).length
      (q'.wonByOthers sd c start) ((q'.pc c).loop sd) := by
  have hothers := State.wonByOthers_append (c := c) hstart hw
  have hlen : (q'.winners sd).length = (q.winners sd).length + won.toNat := by
    rw [hw]
    cases won <;> simp
  have hnone : List.countP (fun d => d ≠ c) (if won then [c] else []) = 0 := by
    cases won <;> simp
  rw [hnone,Nat.add_zero] at hothers
  rw [hlen,hothers]
  unfold iterates failsSpuriously
  generalize (q.pc c).loop sd = l at h hl
  generalize (q'.pc c).loop sd = l' at hl
  cases hl with
  | load | equal | refused =>
    simp only [Advance,hc,if_true,Bool.toNat_false] at h ⊢
    omega
  | behind ne =>
    have hlt : val _ ≠ (q.winners sd).length := fun he => ne (val_injective (he.trans hc.symm))
    simp only [Advance,Bool.toNat_false] at h ⊢
    omega
  | @failed pos why =>
    have hlt : pos ≠ q.counter sd → val pos ≠ (q.winners sd).length := fun hne he =>
      hne (val_injective (he.trans hc.symm))
    simp only [Advance,hc,if_true,Bool.toNat_false] at h ⊢
    by_cases he : pos = q.counter sd
    · simp only [why he,he,and_self,if_true] at h ⊢
      omega
    · have hne := hlt he
      omega
  | won | past =>
    simp only [Advance,hc] at h ⊢
    omega

omit [SizeT W] [DecidableEq W] in
theorem iterates_others {a : Act T ι} (ha : ∀ b, a ≠ .step c b) : iterates sd c q a q' = 0 := by
  unfold iterates
  split
  · exact if_neg fun he => ha _ (congrArg (Act.step · _) he)
  · rfl

omit [SizeT W] in
theorem failsSpuriously_others {a : Act T ι} (ha : ∀ b, a ≠ .step c b) :
    failsSpuriously sd c q a q' = 0 := by
  unfold failsSpuriously
  split
  · exact if_neg fun he => ha _ (congrArg (Act.step · _) he.1)
  · rfl

omit [SizeT W] [DecidableEq W] in
theorem steps_others {a : Act T ι} (ha : ∀ b, a ≠ .step c b) : steps c q a q' = 0 := by
  unfold steps
  split
  · exact if_neg fun he => ha _ (congrArg (Act.step · _) he)
  · rfl

theorem Advance.others {base start iterations spurious : Nat} {a : Act T ι} {won : List ι}
    (h : Advance base start iterations spurious (q.winners sd).length
      (q.wonByOthers sd c start) ((q.pc c).loop sd)) (hstart : start ≤ (q.winners sd).length)
    (hpc : q'.pc c = q.pc c) (hw : q'.winners sd = q.winners sd ++ won) (hc : c ∉ won)
    (ha : ∀ b, a ≠ .step c b) :
    Advance base start (iterations + iterates sd c q a q')
      (spurious + failsSpuriously sd c q a q') (q'.winners sd).length
      (q'.wonByOthers sd c start) ((q'.pc c).loop sd) := by
  have hall : won.countP (fun d => d ≠ c) = won.length :=
    List.countP_eq_length.mpr fun d hd => by
      have hne : d ≠ c := fun he => hc (he ▸ hd)
      simpa using hne
  have hothers := State.wonByOthers_append (c := c) hstart hw
  have hlen : (q'.winners sd).length = (q.winners sd).length + won.length := by
    rw [hw,List.length_append]
  rw [iterates_others ha,failsSpuriously_others ha,hothers,hall,hlen,hpc]
  generalize (q.pc c).loop sd = l at h
  cases l with
  | out => exact h
  | _ =>
    simp only [Advance] at h ⊢
    omega

omit [SizeT W] [DecidableEq W] in
theorem Paced.own {iterations taken : Nat} {b won : Bool} {counter : W}
    (h : Paced iterations taken ((q.pc c).loop sd))
    (hl : LoopStep counter b ((q.pc c).loop sd) ((q'.pc c).loop sd) won) :
    Paced (iterations + iterates sd c q (.step c b) q') (taken + 1) ((q'.pc c).loop sd) := by
  unfold iterates
  generalize (q.pc c).loop sd = l at h hl
  generalize (q'.pc c).loop sd = l' at hl
  cases hl with
  | load | failed =>
    simp only [Paced,if_true] at h ⊢
    omega
  | _ =>
    simp only [Paced] at h ⊢
    omega

end Steps
section Bounds
variable [SizeT W] {n : Nat} {q : State W T ι}

theorem Inv.counter (h : Inv n q) (sd : Side) : val (q.counter sd) = (q.winners sd).length := by
  cases sd with
  | enqueue => simpa [State.counter,State.winners] using h.enqueuePos
  | dequeue => exact h.dequeuePos

theorem Inv.loop_le {c : ι} {sd : Side} {pos : W} (h : Inv n q)
    (hl : (q.pc c).loop sd = .loadSeq pos) : val pos ≤ (q.winners sd).length := by
  have hok := h.pcs c
  cases sd with
  | enqueue =>
    cases hp : q.pc c with
    | enqLoadSeq data pos =>
      rw [hp] at hl hok
      cases hl
      have hle : val pos ≤ q.tickets.length := hok
      simpa [State.winners] using hle
    | _ =>
      rw [hp] at hl
      cases hl
  | dequeue =>
    cases hp : q.pc c with
    | deqLoadSeq pos =>
      rw [hp] at hl hok
      cases hl
      exact hok
    | _ =>
      rw [hp] at hl
      cases hl

/-- The cell of the next enqueue ticket is at the ticket, or less than a round behind; full,
it is a round behind. -/
theorem Inv.seqAt_next_enqueue (h : Inv n q) :
    q.seqAt n q.tickets.length ≤ q.tickets.length ∧
      q.tickets.length ≤ q.seqAt n q.tickets.length + n := by
  have h2 := h.two_le
  have hroom := h.room
  by_cases hfull : q.tickets.length < q.takers.length + n
  · rcases h.free q.tickets.length (Nat.le_refl _) hfull with hs | hs <;> omega
  · have hlap : q.tickets.length = q.takers.length + n := by omega
    have hseq : q.seqAt n q.tickets.length = q.seqAt n q.takers.length := by
      simp [State.seqAt,hlap]
    rcases h.stored q.takers.length (Nat.le_refl _) (by omega) with hs | ⟨hs,-⟩ <;> omega

theorem Inv.seqAt_next_dequeue (h : Inv n q) :
    q.seqAt n q.takers.length ≤ q.takers.length + 1 ∧
      q.takers.length + 1 ≤ q.seqAt n q.takers.length + n := by
  have h2 := h.two_le
  have horder := h.order
  by_cases hempty : q.takers.length < q.tickets.length
  · rcases h.stored q.takers.length (Nat.le_refl _) hempty with hs | ⟨hs,-⟩ <;> omega
  · rcases h.free q.takers.length (by omega) (by omega) with hs | hs <;> omega

end Bounds

section Words
variable [DecidableEq ι] [Inhabited T] {capacity : BitVec 64} {q q' : State (BitVec 64) T ι}
  {as : List (Act T ι)} {c : ι} {sd : Side}

theorem dif_nonpos {a b : BitVec 64} (hle : val a ≤ val b) (hlap : val b ≤ val a + 2^63) :
    ¬ dif a b > 0 := by
  have hd : dif (ofNat (val a) : BitVec 64) (ofNat (val b)) = (val a : Int) - val b :=
    dif_ofNat (by decide) hlap (by omega)
  rw [ofNat_val,ofNat_val] at hd
  omega

theorem reachable_behind (h : (system capacity).Reachable q) (ht : q.tickets.length < 2^63) :
    Behind q := by
  have hi := reachable_inv_64 h ht
  have hcap : capacity.toNat ≤ 2^63 := by
    obtain ⟨k,hk⟩ := hi.pow
    have hlt : 2^k < 2^64 := hk ▸ capacity.isLt
    have hk64 : k < 64 := (Nat.pow_lt_pow_iff_right (by decide)).mp hlt
    rw [hk]
    exact Nat.pow_le_pow_right (by decide) (by omega)
  refine ⟨fun pos hpos he => ?_,fun pos hpos he => ?_⟩
  · have hval : val pos = q.tickets.length := by rw [he]; exact hi.enqueuePos
    obtain ⟨hle,hlap⟩ := hi.seqAt_next_enqueue
    refine dif_nonpos ?_ ?_ hpos
    · rw [hi.sequence,hval]
      exact hle
    · rw [hi.sequence,hval]
      omega
  · have hval : val pos = q.takers.length := by rw [he]; exact hi.dequeuePos
    have horder := hi.order
    have hsucc : val (pos + 1) = val pos + 1 := val_succ (show val pos + 1 < 2^64 by omega)
    obtain ⟨hle,hlap⟩ := hi.seqAt_next_dequeue
    refine dif_nonpos ?_ ?_ hpos
    · rw [hi.sequence,hsucc,hval]
      exact hle
    · rw [hi.sequence,hsucc,hval]
      omega

/-- What the loop of a call comes to along a run. -/
theorem run_advance (base : Nat) {start : Nat} (h : (system capacity).Reachable q)
    (hr : (system capacity).Run q as q') (ht : q'.tickets.length < 2^63)
    (hstart : start ≤ (q.winners sd).length)
    (hadv : Advance base start 0 0 (q.winners sd).length (q.wonByOthers sd c start)
      ((q.pc c).loop sd)) :
    Advance base start ((system capacity).total (iterates sd c) q as)
      ((system capacity).total (failsSpuriously sd c) q as) (q'.winners sd).length
      (q'.wonByOthers sd c start) ((q'.pc c).loop sd) ∧
    (Paced 0 0 ((q.pc c).loop sd) → Paced ((system capacity).total (iterates sd c) q as)
      ((system capacity).total (steps c) q as) ((q'.pc c).loop sd)) := by
  have hrun := hr.total_invariant
    (w := fun s a t => (iterates sd c s a t,failsSpuriously sd c s a t,steps c s a t))
    (J := fun s m => (system capacity).Reachable s ∧ (s.tickets.length < 2^63 →
      start ≤ (s.winners sd).length ∧ Advance base start m.1 m.2.1 (s.winners sd).length
        (s.wonByOthers sd c start) ((s.pc c).loop sd) ∧
      (Paced 0 0 ((q.pc c).loop sd) → Paced m.1 m.2.2 ((s.pc c).loop sd))))
    (m := 0) ?_ ⟨h,fun _ => ⟨hstart,hadv,id⟩⟩
  · rw [zero_add,System.total_prod,System.total_prod] at hrun
    exact (hrun.2 ht).2
  rintro s a t m ⟨hreach,hm⟩ hn
  refine ⟨hreach.step hn,fun ht => ?_⟩
  have hlen : s.tickets.length < 2^63 := (State.next_tickets hn).length_le.trans_lt ht
  obtain ⟨hstart,hadv,hpace⟩ := hm hlen
  have hcounter := (reachable_inv_64 hreach hlen).counter sd
  have hin : (s.pc c).loop sd ≠ .out := fun he => by
    rw [he] at hadv
    exact hadv
  by_cases ha : ∃ b, a = .step c b
  · obtain ⟨b,rfl⟩ := ha
    obtain ⟨won,hl,hw⟩ := State.step_loop (reachable_behind hreach hlen) hn hin
    refine ⟨?_,hadv.own hcounter hstart hl hw,fun hp => ?_⟩
    · rw [hw,List.length_append]
      omega
    · have hown : steps c s (.step c b) t = 1 := if_pos rfl
      change Paced _ (m.2.2 + steps c s (.step c b) t) _
      rw [hown]
      exact (hpace hp).own hl
  · have hother : ∀ b, a ≠ .step c b := fun b he => ha ⟨b,he⟩
    obtain ⟨hpc,others,hw,hc⟩ := State.next_others hn hother hin
    refine ⟨?_,hadv.others hstart hpc hw hc hother,fun hp => ?_⟩
    · rw [hw,List.length_append]
      omega
    · change Paced (m.1 + iterates sd c s a t) (m.2.2 + steps c s a t) _
      rw [iterates_others hother,steps_others hother,hpc]
      exact hpace hp

theorem Advance.iterations_le {base start iterations spurious len others : Nat}
    {l : Loop (BitVec 64)} (h : Advance base start iterations spurious len others l) :
    base + iterations ≤ start + others + spurious + 1 := by
  cases l with
  | out => exact h.elim
  | _ =>
    simp only [Advance] at h
    omega

theorem Paced.steps_le {iterations taken : Nat} {l : Loop (BitVec 64)}
    (h : Paced iterations taken l) : taken ≤ 2*iterations + 3 := by
  cases l with
  | out => exact h.elim
  | _ =>
    simp only [Paced] at h
    omega

omit [Inhabited T] in
theorem State.steps_of_loop (h : (q.pc c).loop sd ≠ .out) :
    (q.pc c).ret.isSome ∨ ∀ b, (q.step c b).isSome := by
  cases hp : q.pc c with
  | idle =>
    rw [hp] at h
    cases sd <;> exact absurd rfl h
  | enqReturn data won | deqReturn won => exact .inl rfl
  | enqCas data pos | deqCas pos =>
    refine .inr fun b => ?_
    simp only [State.step,hp]
    split <;> rfl
  | _ => exact .inr fun b => by simp [State.step,hp]

/-- A retry that is not spurious goes on from a later position, at most the counter. A call
has at most one iteration more than there are tickets won by others and spurious failures,
and not many more steps, which it can take until it returns. -/
theorem retries_bounded (h : (system capacity).Reachable q) (hr : (system capacity).Run q as q')
    (ht : q'.tickets.length < 2^63) (sd : Side) (c : ι) :
    (∀ pos pos', (q.pc c).loop sd = .loadSeq pos → (q'.pc c).loop sd = .loadSeq pos' →
      (system capacity).total (iterates sd c) q as = 1 →
      (system capacity).total (failsSpuriously sd c) q as = 0 →
      pos.toNat < pos'.toNat ∧ pos'.toNat ≤ (q'.counter sd).toNat) ∧
    ((q.pc c).loop sd = .loadPos →
      (system capacity).total (iterates sd c) q as ≤
        1 + q'.wonByOthers sd c (q.winners sd).length +
          (system capacity).total (failsSpuriously sd c) q as ∧
      (system capacity).total (steps c) q as ≤
        2*(system capacity).total (iterates sd c) q as + 3 ∧
      ((q'.pc c).ret.isSome ∨ ∀ b, (q'.step c b).isSome)) := by
  have hlen : q.tickets.length ≤ q'.tickets.length := hr.relates
    (R := fun s t => s.tickets.length ≤ t.tickets.length) (fun _ => Nat.le_refl _)
    (fun _ _ _ => Nat.le_trans) (fun _ _ _ hst => (State.next_tickets hst).length_le)
  have hnone : q.wonByOthers sd c (q.winners sd).length = 0 := by simp [State.wonByOthers]
  constructor
  · intro pos pos' hpos hpos' hone hzero
    have hle := (reachable_inv_64 h (hlen.trans_lt ht)).loop_le hpos
    have hadv := (run_advance (c := c) (val pos + 1) h hr ht (Nat.le_refl _) (by
      rw [hpos,hnone]
      exact ⟨Nat.le_refl _,hle,rfl⟩)).1
    have hcounter := (reachable_inv_64 (h.run hr) ht).counter sd
    rw [hone,hzero,hpos'] at hadv
    obtain ⟨hadv,hlast,-⟩ := hadv
    change val pos < val pos' ∧ val pos' ≤ val (q'.counter sd)
    omega
  · intro hload
    obtain ⟨hadv,hpace⟩ := run_advance (c := c) (q.winners sd).length h hr ht
      (Nat.le_refl _) (by
        rw [hload,hnone]
        exact ⟨Nat.le_refl _,rfl⟩)
    have hpace := hpace (by rw [hload]; exact Nat.le_refl _)
    have hle := hadv.iterations_le
    have hin : (q'.pc c).loop sd ≠ .out := fun he => by
      rw [he] at hadv
      exact hadv
    exact ⟨by omega,hpace.steps_le,State.steps_of_loop hin⟩

end Words

def retryRun : List (Act Nat Nat) :=
  [.step 0 false,.enqueue 1 8] ++ List.replicate 5 (.step 1 false) ++ [.step 0 false]

def retryCall : State (BitVec 64) Nat Nat :=
  ((system 2#64).exec twoCells [.enqueue 0 7]).get (by decide)

def retryFirst : State (BitVec 64) Nat Nat :=
  ((system 2#64).exec retryCall [.step 0 false]).get (by decide)

def retrySecond : State (BitVec 64) Nat Nat :=
  ((system 2#64).exec retryFirst retryRun).get (by decide)

theorem retries_bounded_one :
    ((0#64).toNat < (1#64).toNat ∧ (1#64).toNat ≤ (retrySecond.counter .enqueue).toNat) ∧
    (system 2#64).total (iterates .enqueue 0) retryCall (.step 0 false :: retryRun) = 2 ∧
    (system 2#64).total (iterates .enqueue 0) retryCall (.step 0 false :: retryRun) ≤
      1 + retrySecond.wonByOthers .enqueue 0 (retryCall.winners .enqueue).length +
        (system 2#64).total (failsSpuriously .enqueue 0) retryCall (.step 0 false :: retryRun) := by
  have hcall : (system 2#64).Reachable retryCall :=
    System.Reachable.exec (init_create (by decide)) (by decide)
  have hfirst : (system 2#64).next retryCall (.step 0 false) = some retryFirst :=
    System.next_of_exec (Option.some_get _).symm
  have hr : (system 2#64).Run retryFirst retryRun retrySecond :=
    System.run_of_exec (Option.some_get _).symm
  exact ⟨(retries_bounded (hcall.step hfirst) hr (by decide) .enqueue 0).1 0#64 1#64 rfl rfl rfl rfl,
    rfl,((retries_bounded hcall (.cons hfirst hr) (by decide) .enqueue 0).2 rfl).1⟩

end Flashsale.MpmcQueue
