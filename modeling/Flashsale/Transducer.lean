import Mathlib.Data.List.Basic
set_option autoImplicit false

/-!
Functions that turn a state and an input into the next state and an output, run
over lists of inputs, with one output for each.
-/

namespace Transducer
variable {σ α β : Type*} (f : σ → α → σ × β)

def after (s : σ) (xs : List α) : σ := xs.foldl (fun s x => (f s x).1) s

def outputs : σ → List α → List β
  | _, [] => []
  | s, x :: xs => (f s x).2 :: outputs (f s x).1 xs

@[simp] theorem after_nil (s : σ) : after f s [] = s := rfl

@[simp] theorem after_cons (s : σ) (x : α) (xs : List α) :
    after f s (x :: xs) = after f (f s x).1 xs := rfl

@[simp] theorem outputs_nil (s : σ) : outputs f s [] = [] := rfl

@[simp] theorem outputs_cons (s : σ) (x : α) (xs : List α) :
    outputs f s (x :: xs) = (f s x).2 :: outputs f (f s x).1 xs := rfl

theorem after_append (s : σ) (xs ys : List α) :
    after f s (xs ++ ys) = after f (after f s xs) ys := List.foldl_append

theorem outputs_append (s : σ) (xs ys : List α) :
    outputs f s (xs ++ ys) = outputs f s xs ++ outputs f (after f s xs) ys := by
  induction xs generalizing s with
  | nil => rfl
  | cons x xs ih => simp [ih]

@[simp] theorem outputs_length (s : σ) (xs : List α) : (outputs f s xs).length = xs.length := by
  induction xs generalizing s with
  | nil => rfl
  | cons x xs ih => simp [ih]

theorem outputs_isPrefix {xs ys : List α} (s : σ) (h : xs <+: ys) :
    outputs f s xs <+: outputs f s ys := by
  obtain ⟨more,rfl⟩ := h
  rw [outputs_append]
  exact List.prefix_append _ _

theorem mem_outputs {s : σ} {xs : List α} {y : β} (h : y ∈ outputs f s xs) :
    ∃ s' x, x ∈ xs ∧ (f s' x).2 = y := by
  induction xs generalizing s with
  | nil => cases h
  | cons x xs ih =>
    rcases List.mem_cons.mp h with rfl | h
    · exact ⟨s,x,by simp,rfl⟩
    · obtain ⟨s',x',hx,he⟩ := ih h
      exact ⟨s',x',by simp [hx],he⟩

section Inserted

/-- The inputs marked as a run's own, without those inserted into it. -/
def own (xs : List (Bool × α)) : List α := (xs.filter (·.1)).map (·.2)

variable {f}

/-- Inserted inputs change neither the last state nor the outputs of the others,
up to a relation of the states that both kinds of inputs keep. -/
theorem insert_related {R : List (Bool × α) → σ → σ → Prop}
    (hown : ∀ {x xs s t}, R ((true,x) :: xs) s t →
      (f s x).2 = (f t x).2 ∧ R xs (f s x).1 (f t x).1)
    (hinserted : ∀ {x xs s t}, R ((false,x) :: xs) s t → R xs (f s x).1 t)
    {s t : σ} {xs : List (Bool × α)} (h : R xs s t) :
    R [] (after f s (xs.map (·.2))) (after f t (own xs)) ∧
      ((xs.zip (outputs f s (xs.map (·.2)))).filter (·.1.1)).map (·.2) = outputs f t (own xs) := by
  induction xs generalizing s t with
  | nil => exact ⟨h,rfl⟩
  | cons y xs ih =>
    obtain ⟨mark,x⟩ := y
    cases mark with
    | true =>
      obtain ⟨hout,hrest⟩ := hown h
      simpa [own,hout] using ih hrest
    | false => simpa [own] using ih (hinserted h)

end Inserted
end Transducer
