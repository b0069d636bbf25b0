import Mathlib.Logic.Function.Basic
import Mathlib.Algebra.Group.Prod
import Mathlib.Data.List.Basic
import Mathlib.Algebra.BigOperators.Group.Finset.Basic
set_option autoImplicit false

/-!
Labelled transition systems whose step is a partial function of the state and
the label: finite runs, invariants over them, conditions on the steps taken,
and the projection of one system's runs onto a component.
-/

namespace Transition

theorem sum_balance {ι M : Type} [Fintype ι] [DecidableEq ι] [AddCommMonoid M] {f g : ι → M}
    {i : ι} {m n : M} (hne : ∀ j, j ≠ i → f j = g j) (hi : f i + m = g i + n) :
    ∑ j, f j + m = ∑ j, g j + n := by
  rw [← Finset.sum_erase_add _ _ (Finset.mem_univ i),
    ← Finset.sum_erase_add _ g (Finset.mem_univ i),add_assoc,hi,
    Finset.sum_congr rfl fun j hj => hne j (Finset.ne_of_mem_erase hj),add_assoc]

theorem sum_add_of_ne {ι M : Type} [Fintype ι] [DecidableEq ι] [AddCommMonoid M] {f g : ι → M}
    {i : ι} {m : M} (hne : ∀ j, j ≠ i → f j = g j) (hi : f i = g i + m) :
    ∑ j, f j = ∑ j, g j + m := by
  simpa using sum_balance (m := 0) hne (by simpa using hi)

structure System (σ α : Type*) where
  init : σ → Prop
  next : σ → α → Option σ

namespace System
variable {σ α τ β : Type*} (M : System σ α)

inductive Run : σ → List α → σ → Prop where
  | nil (s : σ) : Run s [] s
  | cons {s t u : σ} {a : α} {as : List α} :
      M.next s a = some t → Run t as u → Run s (a :: as) u

def Reachable (s : σ) : Prop := ∃ s₀ as, M.init s₀ ∧ M.Run s₀ as s

def exec : σ → List α → Option σ
  | s, [] => some s
  | s, a :: as => (M.next s a).bind (fun t => exec t as)

/-- The step condition `P` holds at each step of the trace, judged in the state
the step is taken from. -/
def Along (P : σ → α → Prop) : σ → List α → Prop
  | _, [] => True
  | s, a :: as => P s a ∧ ∀ t, M.next s a = some t → Along P t as

/-- The state predicate `I` holds in each state the trace visits. -/
def Throughout (I : σ → Prop) : σ → List α → Prop
  | s, [] => I s
  | s, a :: as => I s ∧ ∀ t, M.next s a = some t → Throughout I t as

/-- A condition that can be tested is tested along a trace by taking its steps. -/
instance Along.decide {P : σ → α → Prop} [∀ s a, Decidable (P s a)] :
    ∀ s as, Decidable (M.Along P s as)
  | _, [] => isTrue trivial
  | s, a :: as =>
      have : DecidablePred fun t => M.Along P t as := fun t => Along.decide t as
      inferInstanceAs (Decidable (P s a ∧ ∀ t ∈ M.next s a, M.Along P t as))

/-- What the steps of a trace add up to. -/
def total {β : Type*} [AddMonoid β] (w : σ → α → σ → β) : σ → List α → β
  | _, [] => 0
  | s, a :: as =>
      match M.next s a with
      | none => 0
      | some t => w s a t + total w t as

variable {M}

theorem Run.append {s t u : σ} {as bs : List α} (h : M.Run s as t) (k : M.Run t bs u) :
    M.Run s (as ++ bs) u := by
  induction h with
  | nil s => exact k
  | cons hn _ ih => exact .cons hn (ih k)

theorem Run.rest {s t u : σ} {as bs : List α} (h : M.Run s (as ++ bs) u) (k : M.Run s as t) :
    M.Run t bs u := by
  induction k with
  | nil s => exact h
  | cons hn _ ih =>
    cases h with
    | cons hn' hr =>
      obtain rfl := Option.some.inj (hn.symm.trans hn')
      exact ih hr

theorem Run.single {s t : σ} {a : α} (h : M.next s a = some t) : M.Run s [a] t :=
  .cons h (.nil t)

theorem Reachable.of_init {s : σ} (h : M.init s) : M.Reachable s := ⟨s,[],h,.nil s⟩

theorem Reachable.run {s t : σ} {as : List α} (h : M.Reachable s) (k : M.Run s as t) :
    M.Reachable t := by
  obtain ⟨s₀,bs,hi,hr⟩ := h
  exact ⟨s₀,bs ++ as,hi,hr.append k⟩

theorem Reachable.step {s t : σ} {a : α} (h : M.Reachable s) (k : M.next s a = some t) :
    M.Reachable t := h.run (.single k)

theorem run_of_exec {s t : σ} {as : List α} (h : M.exec s as = some t) : M.Run s as t := by
  induction as generalizing s with
  | nil => cases h; exact .nil _
  | cons a as ih =>
    obtain ⟨m,hm,hr⟩ := Option.bind_eq_some_iff.mp h
    exact .cons hm (ih hr)

theorem next_of_exec {s t : σ} {a : α} (h : M.exec s [a] = some t) : M.next s a = some t := by
  obtain ⟨m,hm,hr⟩ := Option.bind_eq_some_iff.mp h
  cases hr
  exact hm

theorem Reachable.exec {s : σ} {as : List α} (hi : M.init s) (h : (M.exec s as).isSome) :
    M.Reachable ((M.exec s as).get h) := ⟨s,as,hi,run_of_exec (Option.some_get h).symm⟩

theorem Run.invariant {I : σ → Prop} (hstep : ∀ s a t, I s → M.next s a = some t → I t)
    {s t : σ} {as : List α} (h : M.Run s as t) (hs : I s) : I t := by
  induction h with
  | nil s => exact hs
  | cons hn _ ih => exact ih (hstep _ _ _ hs hn)

/-- The induction every safety result below is an instance of. -/
theorem Reachable.invariant {I : σ → Prop} (hinit : ∀ s, M.init s → I s)
    (hstep : ∀ s a t, I s → M.next s a = some t → I t) {s : σ} (h : M.Reachable s) : I s := by
  obtain ⟨s₀,as,hi,hr⟩ := h
  exact hr.invariant hstep (hinit s₀ hi)

theorem Run.total_invariant {β : Type*} [AddMonoid β] {w : σ → α → σ → β} {J : σ → β → Prop}
    (hstep : ∀ s a t m, J s m → M.next s a = some t → J t (m + w s a t))
    {s t : σ} {as : List α} {m : β} (h : M.Run s as t) (hs : J s m) :
    J t (m + M.total w s as) := by
  induction h generalizing m with
  | nil s => simpa [total] using hs
  | cons hn _ ih =>
    have hrest := ih (hstep _ _ _ _ hs hn)
    simpa only [total,hn,add_assoc] using hrest

theorem total_prod {β γ : Type*} [AddMonoid β] [AddMonoid γ] (v : σ → α → σ → β)
    (w : σ → α → σ → γ) (s : σ) (as : List α) :
    M.total (fun s a t => (v s a t,w s a t)) s as = (M.total v s as,M.total w s as) := by
  induction as generalizing s with
  | nil => rfl
  | cons a as ih =>
    simp only [total]
    split
    · rfl
    · rw [ih]
      rfl

/-- Invariants of the runs whose steps all meet `P`. -/
theorem Run.invariant_along {I : σ → Prop} {P : σ → α → Prop}
    (hstep : ∀ s a t, I s → P s a → M.next s a = some t → I t)
    {s t : σ} {as : List α} (h : M.Run s as t) (hp : M.Along P s as) (hs : I s) : I t := by
  induction h with
  | nil s => exact hs
  | cons hn _ ih => exact ih (hp.2 _ hn) (hstep _ _ _ hs hp.1 hn)

theorem Reachable.invariant_along {I : σ → Prop} {P : σ → α → Prop}
    (hstep : ∀ s a t, M.Reachable s → I s → P s a → M.next s a = some t → I t)
    {s t : σ} {as : List α} (h : M.Reachable s) (hr : M.Run s as t) (hp : M.Along P s as)
    (hs : I s) : I t :=
  (hr.invariant_along (I := fun s => M.Reachable s ∧ I s)
    (fun s a t hi hp hn => ⟨hi.1.step hn,hstep s a t hi.1 hi.2 hp hn⟩) hp ⟨h,hs⟩).2

theorem Reachable.invariant_run {I : σ → Prop}
    (hstep : ∀ s a t, M.Reachable s → I s → M.next s a = some t → I t)
    {s t : σ} {as : List α} (h : M.Reachable s) (hr : M.Run s as t) (hs : I s) : I t :=
  (hr.invariant (I := fun s => M.Reachable s ∧ I s)
    (fun s a t hi hn => ⟨hi.1.step hn,hstep s a t hi.1 hi.2 hn⟩) ⟨h,hs⟩).2

theorem Along.and {P Q : σ → α → Prop} {s : σ} {as : List α} (h : M.Along P s as)
    (k : M.Along Q s as) : M.Along (fun s a => P s a ∧ Q s a) s as := by
  induction as generalizing s with
  | nil => trivial
  | cons a as ih => exact ⟨⟨h.1,k.1⟩,fun t ht => ih (h.2 t ht) (k.2 t ht)⟩

theorem Along.imp {P Q : σ → α → Prop} {s : σ} {as : List α} (himp : ∀ s a, P s a → Q s a)
    (h : M.Along P s as) : M.Along Q s as := by
  induction as generalizing s with
  | nil => trivial
  | cons a as ih => exact ⟨himp s a h.1,fun t ht => ih (h.2 t ht)⟩

theorem Along.append {P : σ → α → Prop} {s t : σ} {as bs : List α} (h : M.Along P s as)
    (hr : M.Run s as t) (k : M.Along P t bs) : M.Along P s (as ++ bs) := by
  induction hr with
  | nil s => exact k
  | @cons s m u a as hn _ ih =>
    refine ⟨h.1,fun t ht => ?_⟩
    obtain rfl : m = t := Option.some.inj (hn.symm.trans ht)
    exact ih (h.2 m hn) k

theorem along_of_forall {P : σ → α → Prop} {s : σ} {as : List α} (h : ∀ a ∈ as, ∀ s, P s a) :
    M.Along P s as := by
  induction as generalizing s with
  | nil => trivial
  | cons a as ih => exact ⟨h a (by simp) s,fun t _ => ih fun b hb => h b (by simp [hb])⟩

theorem Run.relates {R : σ → σ → Prop} (hrefl : ∀ s, R s s)
    (htrans : ∀ s t u, R s t → R t u → R s u)
    (hstep : ∀ s a t, M.next s a = some t → R s t)
    {s t : σ} {as : List α} (h : M.Run s as t) : R s t := by
  induction h with
  | nil s => exact hrefl s
  | cons hn _ ih => exact htrans _ _ _ (hstep _ _ _ hn) ih

theorem Throughout.head {I : σ → Prop} {s : σ} {as : List α} (h : M.Throughout I s as) : I s := by
  cases as with
  | nil => exact h
  | cons a as => exact h.1

theorem Throughout.last {I : σ → Prop} {s t : σ} {as : List α} (h : M.Throughout I s as)
    (hr : M.Run s as t) : I t := by
  induction hr with
  | nil s => exact h
  | cons hn _ ih => exact ih (h.2 _ hn)

theorem Along.throughout {I J : σ → Prop} {P : σ → α → Prop} (hsub : ∀ s, J s → I s)
    (hkeep : ∀ s a t, J s → P s a → M.next s a = some t → J t)
    {s : σ} {as : List α} (h : M.Along P s as) (hs : J s) : M.Throughout I s as := by
  induction as generalizing s with
  | nil => exact hsub s hs
  | cons a as ih => exact ⟨hsub s hs,fun t ht => ih (h.2 t ht) (hkeep _ _ _ hs h.1 ht)⟩

theorem Run.throughout_of_last {B I : σ → Prop} (hB : ∀ s a t, B s → M.next s a = some t → B t)
    (hback : ∀ s a t, B s → M.next s a = some t → I t → I s)
    {s t : σ} {as : List α} (h : M.Run s as t) (hs : B s) (ht : I t) : M.Throughout I s as := by
  induction h with
  | nil s => exact ht
  | @cons s m u a as hn _ ih =>
    have hm := ih (hB _ _ _ hs hn) ht
    refine ⟨hback _ _ _ hs hn hm.head,fun t ht => ?_⟩
    obtain rfl : m = t := Option.some.inj (hn.symm.trans ht)
    exact hm

/-- The condition `P` on the steps decides the property `I` of the states, in runs
whose steps meet `Q`: where an invariant `J` above it is kept by the steps that meet
`P`, and a step into a state with the property meets it. -/
theorem along_iff_throughout_of {I J : σ → Prop} {P Q : σ → α → Prop} (hsub : ∀ s, J s → I s)
    (hkeep : ∀ s a t, J s → Q s a → P s a → M.next s a = some t → J t)
    (hneed : ∀ s a t, J s → Q s a → M.next s a = some t → I t → P s a)
    {s t : σ} {as : List α} (h : M.Run s as t) (hq : M.Along Q s as) (hs : J s) :
    M.Along P s as ↔ M.Throughout I s as := by
  induction h with
  | nil s => exact ⟨fun _ => hsub s hs,fun _ => trivial⟩
  | @cons s m u a as hn hr ih =>
    constructor
    · intro hp
      refine ⟨hsub s hs,fun t ht => ?_⟩
      obtain rfl : m = t := Option.some.inj (hn.symm.trans ht)
      exact (ih (hq.2 m hn) (hkeep _ _ _ hs hq.1 hp.1 hn)).mp (hp.2 m hn)
    · intro hi
      have hm := hi.2 m hn
      have hp := hneed _ _ _ hs hq.1 hn hm.head
      refine ⟨hp,fun t ht => ?_⟩
      obtain rfl : m = t := Option.some.inj (hn.symm.trans ht)
      exact (ih (hq.2 m hn) (hkeep _ _ _ hs hq.1 hp hn)).mpr hm

theorem along_iff_throughout {I J : σ → Prop} {P : σ → α → Prop} (hsub : ∀ s, J s → I s)
    (hkeep : ∀ s a t, J s → P s a → M.next s a = some t → J t)
    (hneed : ∀ s a t, J s → M.next s a = some t → I t → P s a)
    {s t : σ} {as : List α} (h : M.Run s as t) (hs : J s) :
    M.Along P s as ↔ M.Throughout I s as :=
  along_iff_throughout_of (Q := fun _ _ => True) hsub (fun s a t hj _ => hkeep s a t hj)
    (fun s a t hj _ => hneed s a t hj) h (along_of_forall fun _ _ _ => trivial) hs

theorem Run.entry {P : σ → Prop} {s u : σ} {as : List α} (h : M.Run s as u) (hs : ¬P s)
    (hu : P u) : ∃ bs a cs m t, as = bs ++ a :: cs ∧ M.Run s bs m ∧ M.next m a = some t ∧
      M.Run t cs u ∧ ¬P m ∧ P t := by
  induction h with
  | nil s => exact absurd hu hs
  | @cons s t u a as hn hr ih =>
    by_cases ht : P t
    · exact ⟨[],a,as,s,t,rfl,.nil s,hn,hr,hs,ht⟩
    · obtain ⟨bs,b,cs,m,t',rfl,hb,hm,hc,hnot,ht'⟩ := ih ht hu
      exact ⟨a :: bs,b,cs,m,t',rfl,.cons hn hb,hm,hc,hnot,ht'⟩

/-- One kind of step, taken until `P` holds, where an invariant lets it be taken and
something decreases. -/
theorem run_until_le {I P : σ → Prop} (left : σ → Nat) (a : α)
    (h : ∀ s, I s → ¬P s → ∃ t, M.next s a = some t ∧ I t ∧ left t < left s) {s : σ} (hs : I s) :
    ∃ m t, m ≤ left s ∧ M.Run s (List.replicate m a) t ∧ I t ∧ P t := by
  induction hl : left s using Nat.strongRecOn generalizing s with
  | ind n ih =>
    by_cases hp : P s
    · exact ⟨0,s,Nat.zero_le _,.nil s,hs,hp⟩
    · obtain ⟨t,hn,ht,hlt⟩ := h s hs hp
      obtain ⟨m,u,hm,hr,hu,hP⟩ := ih _ (hl ▸ hlt) ht rfl
      exact ⟨m+1,u,by omega,.cons hn hr,hu,hP⟩

theorem run_until {I P : σ → Prop} (left : σ → Nat) (a : α)
    (h : ∀ s, I s → ¬P s → ∃ t, M.next s a = some t ∧ I t ∧ left t < left s) {s : σ} (hs : I s) :
    ∃ m t, M.Run s (List.replicate m a) t ∧ I t ∧ P t := by
  obtain ⟨m,t,-,hr,ht,hP⟩ := run_until_le left a h hs
  exact ⟨m,t,hr,ht,hP⟩

/-- Each step of `M`, seen through `f`, is a step of `N` or no step at all. -/
def Projects (M : System σ α) (N : System τ β) (f : σ → τ) : Prop :=
  ∀ s a t, M.next s a = some t → f t = f s ∨ ∃ b, N.next (f s) b = some (f t)

theorem Run.project_along {N : System τ β} {f : σ → τ} {J : σ → Prop} {P : σ → α → Prop}
    (hkeep : ∀ s a t, J s → P s a → M.next s a = some t → J t)
    (hf : ∀ s a t, J s → P s a → M.next s a = some t → f t = f s ∨ ∃ b, N.next (f s) b = some (f t))
    {s t : σ} {as : List α} (h : M.Run s as t) (hp : M.Along P s as) (hs : J s) :
    ∃ bs, N.Run (f s) bs (f t) := by
  induction h with
  | nil s => exact ⟨[],.nil _⟩
  | cons hn _ ih =>
    obtain ⟨bs,hb⟩ := ih (hp.2 _ hn) (hkeep _ _ _ hs hp.1 hn)
    rcases hf _ _ _ hs hp.1 hn with he | ⟨b,hb'⟩
    · exact ⟨bs,he ▸ hb⟩
    · exact ⟨b :: bs,.cons hb' hb⟩

theorem Run.project {N : System τ β} {f : σ → τ} (hf : Projects M N f) {s t : σ} {as : List α}
    (h : M.Run s as t) : ∃ bs, N.Run (f s) bs (f t) :=
  h.project_along (J := fun _ => True) (P := fun _ _ => True) (fun _ _ _ _ _ _ => trivial)
    (fun s a t _ _ => hf s a t) (along_of_forall fun _ _ _ => trivial) trivial

theorem Reachable.project {N : System τ β} {f : σ → τ} (hinit : ∀ s, M.init s → N.init (f s))
    (hf : Projects M N f) {s : σ} (h : M.Reachable s) : N.Reachable (f s) := by
  obtain ⟨s₀,as,hi,hr⟩ := h
  obtain ⟨bs,hb⟩ := hr.project hf
  exact ⟨f s₀,bs,hinit s₀ hi,hb⟩

end System
end Transition
