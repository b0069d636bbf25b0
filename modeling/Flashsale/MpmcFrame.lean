import Flashsale.MpmcSafety
set_option autoImplicit false

namespace Flashsale.MpmcQueue
open SizeT
variable {W T ι : Type}

/-- The value an enqueue was called with. -/
def Pc.item : Pc W T → Option T
  | .enqLoadPos data | .enqLoadSeq data _ | .enqCas data _ => some data
  | .enqWrite data _ | .enqStoreSeq data _ | .enqReturn data _ => some data
  | _ => none

def Pc.dequeuing : Pc W T → Bool
  | .deqLoadPos | .deqLoadSeq _ | .deqCas _ | .deqRead _ | .deqStoreSeq _ _ | .deqReturn _ => true
  | _ => false

theorem Pc.item_of_enqueued {p : Pc W T} {pos : W} {data : T}
    (h : p.enqueued = some (pos,data)) : p.item = some data := by
  unfold Pc.enqueued at h
  split at h <;> simp_all [Pc.item]

theorem Pc.item_eq_none_of_dequeuing {p : Pc W T} (h : p.dequeuing) : p.item = none := by
  cases p <;> simp_all [Pc.dequeuing,Pc.item]

variable [DecidableEq ι]

/-- How a step of call `c` moves the histories. -/
inductive Effect (q q' : State W T ι) (c : ι) : Prop where
  | quiet (tickets : q'.tickets = q.tickets) (takers : q'.takers = q.takers)
      (dequeued : (q'.pc c).dequeued = (q.pc c).dequeued)
  | won (data : T) (item : (q.pc c).item = some data)
      (tickets : q'.tickets = q.tickets ++ [(c,data)]) (takers : q'.takers = q.takers)
  | took (dequeuing : (q.pc c).dequeuing) (before : (q.pc c).dequeued = none)
      (after : (q'.pc c).dequeued = some q.dequeuePos)
      (tickets : q'.tickets = q.tickets) (takers : q'.takers = q.takers ++ [c])

variable {q q' : State W T ι} {c : ι}

theorem State.call_eq {p : Pc W T} (h : q.call c p = some q') :
    q.pc c = .idle ∧ q' = q.goto c p := by
  unfold State.call at h
  split at h
  · rename_i hp
    cases h
    exact ⟨hp,rfl⟩
  · cases h

theorem State.call_of_idle {p : Pc W T} (h : q.pc c = .idle) : q.call c p = some (q.goto c p) := by
  unfold State.call
  rw [h]

variable [SizeT W] [DecidableEq W]

theorem State.step_pc_of_ne {c' : ι} {spurious : Bool} (h : q.step c spurious = some q')
    (hc : c' ≠ c) : q'.pc c' = q.pc c' := by
  unfold State.step at h
  split at h <;> try cases h
  all_goals first
    | exact State.goto_pc_of_ne hc
    | (split at h <;> cases h <;> exact State.goto_pc_of_ne hc)

theorem State.step_effect {spurious : Bool} (h : q.step c spurious = some q') :
    (q'.pc c).item = (q.pc c).item ∧ (q'.pc c).dequeuing = (q.pc c).dequeuing ∧
      Effect q q' c := by
  unfold State.step at h
  cases hp : q.pc c with
  | idle | enqReturn _ _ | deqReturn _ => simp [hp] at h
  | enqLoadPos data | enqWrite data pos | enqStoreSeq data pos | deqLoadPos | deqRead pos
  | deqStoreSeq pos data =>
    simp only [hp,Option.some.injEq] at h
    subst h
    simp only [State.goto_pc_self]
    exact ⟨rfl,rfl,.quiet rfl rfl (by simp [hp,Pc.dequeued])⟩
  | enqLoadSeq data pos | deqLoadSeq pos =>
    simp only [hp,Option.some.injEq] at h
    subst h
    simp only [State.goto_pc_self]
    refine ⟨?_,?_,.quiet rfl rfl ?_⟩
    · split <;> [rfl; split <;> rfl]
    · split <;> [rfl; split <;> rfl]
    · rw [State.goto_pc_self,hp]
      split <;> [rfl; split <;> rfl]
  | enqCas data pos =>
    simp only [hp] at h
    split at h
    · cases h
      simp only [State.goto_pc_self]
      exact ⟨rfl,rfl,.won data (by simp [hp,Pc.item]) rfl rfl⟩
    · cases h
      simp only [State.goto_pc_self]
      exact ⟨rfl,rfl,.quiet rfl rfl (by simp [hp,Pc.dequeued])⟩
  | deqCas pos =>
    simp only [hp] at h
    split at h
    · rename_i hd
      cases h
      simp only [State.goto_pc_self]
      exact ⟨rfl,rfl,.took (by simp [hp,Pc.dequeuing]) (by simp [hp,Pc.dequeued])
        (by simp [Pc.dequeued,hd.1]) rfl rfl⟩
    · cases h
      simp only [State.goto_pc_self]
      exact ⟨rfl,rfl,.quiet rfl rfl (by simp [hp,Pc.dequeued])⟩

theorem State.next_takers {a : Act T ι} (h : q.next a = some q') : q.takers <+: q'.takers := by
  cases a with
  | enqueue c data | dequeue c =>
    obtain ⟨-,rfl⟩ := State.call_eq h
    exact List.prefix_refl _
  | step c spurious =>
    cases (State.step_effect h).2.2 with
    | quiet _ htr _ | won _ _ _ htr => simp [htr]
    | took _ _ _ _ htr =>
      rw [htr]
      exact List.prefix_append _ _

theorem State.step_won {spurious : Bool} (h : q.step c spurious = some q')
    (ht : q'.tickets ≠ q.tickets) :
    ∃ data, q.pc c = .enqCas data q.enqueuePos ∧ spurious = false := by
  unfold State.step at h
  split at h <;> try cases h
  all_goals try exact absurd rfl ht
  all_goals split at h <;> cases h
  all_goals try exact absurd rfl ht
  rename_i data pos hp hw
  exact ⟨data,by rw [hp,hw.1],hw.2⟩

theorem State.step_cas {data : T} (hp : q.pc c = .enqCas data q.enqueuePos) :
    q.step c false = some ((q.winEnqueue c data q.enqueuePos).goto c (.enqWrite data q.enqueuePos)) := by
  simp [State.step,hp]

/-- Every value that calls bring is one that `P` lets the call bring. -/
def Carries (P : ι → T → Prop) (q : State W T ι) : Prop :=
  ∀ c data, (q.pc c).item = some data → P c data

def Consumers (P : ι → Prop) (q : State W T ι) : Prop := ∀ c, (q.pc c).dequeuing → P c

section Roles
variable {P : ι → T → Prop} {C : ι → Prop} {a : Act T ι}

theorem Carries.next (h : Carries P q) (ha : ∀ c data, a = .enqueue c data → P c data)
    (hn : q.next a = some q') : Carries P q' := by
  intro c' data hd
  cases a with
  | enqueue c d | dequeue c =>
    obtain ⟨-,rfl⟩ := State.call_eq hn
    by_cases hc : c' = c
    · subst hc
      rw [State.goto_pc_self] at hd
      first | (cases hd; exact ha _ _ rfl) | cases hd
    · rw [State.goto_pc_of_ne hc] at hd
      exact h c' data hd
  | step c spurious =>
    by_cases hc : c' = c
    · subst hc
      rw [(State.step_effect hn).1] at hd
      exact h c' data hd
    · rw [State.step_pc_of_ne hn hc] at hd
      exact h c' data hd

theorem Consumers.next (h : Consumers C q) (ha : ∀ c, a = .dequeue c → C c)
    (hn : q.next a = some q') : Consumers C q' := by
  intro c' hd
  cases a with
  | enqueue c d | dequeue c =>
    obtain ⟨-,rfl⟩ := State.call_eq hn
    by_cases hc : c' = c
    · subst hc
      rw [State.goto_pc_self] at hd
      first | exact ha _ rfl | cases hd
    · rw [State.goto_pc_of_ne hc] at hd
      exact h c' hd
  | step c spurious =>
    by_cases hc : c' = c
    · subst hc
      rw [(State.step_effect hn).2.1] at hd
      exact h c' hd
    · rw [State.step_pc_of_ne hn hc] at hd
      exact h c' hd

omit [DecidableEq ι] [DecidableEq W] in
theorem Inv.tickets_carry {n : Nat} (hi : Inv n q) (h : Carries P q) {t : Nat} {c : ι} {data : T}
    (ht : q.tickets[t]? = some (c,data)) : P c data := by
  obtain ⟨pos,hw,-⟩ := hi.winner t c data ht
  exact h c data (Pc.item_of_enqueued hw)

end Roles
end Flashsale.MpmcQueue
