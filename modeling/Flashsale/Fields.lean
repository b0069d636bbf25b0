import Mathlib.Data.List.Basic
set_option autoImplicit false

/-!
A text cut at its separators by one pass over the indices, which keeps the first
`limit` fields: they are the first fields of `List.splitOn`.
-/

namespace Fields
variable {α : Type}

def keep (limit : Nat) (fields : List (List α)) (field : List α) : List (List α) :=
  if fields.length < limit then fields ++ [field] else fields

variable [DecidableEq α]

/-- The pass at index `i`, one past the last character at the end: the fields so far and
where the next one starts. -/
def cut (sep : α) (limit : Nat) (xs : List α) (s : List (List α) × Nat) (i : Nat) :
    List (List α) × Nat :=
  if i = xs.length ∨ xs[i]? = some sep then
    (keep limit s.1 ((xs.drop s.2).take (i - s.2)),i+1)
  else s

def split (sep : α) (limit : Nat) (xs : List α) : List (List α) :=
  ((List.range (xs.length + 1)).foldl (cut sep limit xs) ([],0)).1

section Split
variable {sep : α} {limit : Nat} {xs : List α} {done : List (List α)}

omit [DecidableEq α] in
theorem keep_length {field : List α} (h : done.length ≤ limit) :
    (keep limit done field).length ≤ limit := by
  unfold keep
  split
  · rw [List.length_append,List.length_singleton]
    omega
  · exact h

omit [DecidableEq α] in
theorem keep_take {field : List α} {rest : List (List α)} (h : done.length ≤ limit) :
    (keep limit done field ++ rest).take limit = (done ++ field :: rest).take limit := by
  unfold keep
  split
  · simp
  · have hfull : limit ≤ done.length := by omega
    rw [List.take_append_of_le_length hfull,List.take_append_of_le_length hfull]

theorem cut_rest (n : Nat) {i start : Nat} (hn : i + n = xs.length) (hs : start ≤ i)
    (hd : done.length ≤ limit) (hc : sep ∉ (xs.drop start).take (i - start)) :
    ((List.range' i (n + 1)).foldl (cut sep limit xs) (done,start)).1 =
      (done ++ (xs.drop start).splitOn sep).take limit := by
  induction n generalizing i start done with
  | zero =>
    have hend : i = xs.length := hn
    have hlast : (xs.drop start).take (i - start) = xs.drop start :=
      List.take_of_length_le (by rw [List.length_drop]; omega)
    rw [hlast] at hc
    rw [List.splitOn_eq_singleton hc,← keep_take hd,List.append_nil,
      List.take_of_length_le (keep_length hd)]
    change (cut sep limit xs (done,start) i).1 = _
    rw [cut,if_pos (.inl hend),hlast]
  | succ n ih =>
    have hi : i < xs.length := by omega
    have hcut : xs.drop start = (xs.drop start).take (i - start) ++ xs[i] :: xs.drop (i + 1) := by
      have hdrop := List.take_append_drop (i - start) (xs.drop start)
      rw [List.drop_drop,show start + (i - start) = i by omega,List.drop_eq_getElem_cons hi] at hdrop
      exact hdrop.symm
    rw [List.range'_succ,List.foldl_cons,cut]
    by_cases hsep : xs[i] = sep
    · rw [if_pos (.inr (by rw [List.getElem?_eq_getElem hi,hsep])),
        ih (by omega) (Nat.le_refl _) (keep_length hd) (by simp),keep_take hd]
      conv_rhs => rw [hcut,hsep,List.splitOn_append_cons_self_of_not_mem hc]
    · have hne : ¬ (i = xs.length ∨ xs[i]? = some sep) := by
        rw [List.getElem?_eq_getElem hi]
        simp [hsep]
        omega
      rw [if_neg hne]
      refine ih (by omega) (by omega) hd ?_
      rw [show i + 1 - start = i - start + 1 by omega,List.take_add_one,List.getElem?_drop,
        show start + (i - start) = i by omega,List.getElem?_eq_getElem hi]
      simp [hc,Ne.symm hsep]

theorem split_eq_take (sep : α) (limit : Nat) (xs : List α) :
    split sep limit xs = (xs.splitOn sep).take limit := by
  rw [split,List.range_eq_range',cut_rest xs.length (by omega) (Nat.le_refl 0) (by simp) (by simp)]
  rfl

end Split
end Fields
