import Mathlib.Data.Nat.ModEq
set_option autoImplicit false

/-! Positions that only grow, kept in a ring of `n` slots at their remainder by `n`. -/

namespace Ring

/-- A window of `n` consecutive positions meets every slot once. -/
theorem window_injective {n a t u : Nat} (ht : a ≤ t ∧ t < a+n) (hu : a ≤ u ∧ u < a+n)
    (h : t % n = u % n) : t = u := by
  rcases Nat.le_total t u with hle | hle
  · have hd : n ∣ u - t := (Nat.modEq_iff_dvd' hle).mp h
    have := Nat.eq_zero_of_dvd_of_lt hd (by omega)
    omega
  · have hd : n ∣ t - u := (Nat.modEq_iff_dvd' hle).mp h.symm
    have := Nat.eq_zero_of_dvd_of_lt hd (by omega)
    omega

/-- A step of less than one round wraps at most once. -/
theorem add_mod_wrap {n : Nat} (a : Nat) {i : Nat} (hi : i < n) :
    (a+i) % n = if a % n + i < n then a % n + i else a % n + i - n := by
  have hn : a % n < n := Nat.mod_lt _ (by omega)
  have hs : (a+i) % n = (a % n + i) % n := by simp [Nat.add_mod,Nat.mod_eq_of_lt hi]
  rw [hs]
  split
  · exact Nat.mod_eq_of_lt (by omega)
  · rw [Nat.mod_eq_sub_mod (by omega),Nat.mod_eq_of_lt (by omega)]

theorem window_exists {n : Nat} (hn : 0 < n) (a t : Nat) :
    ∃ u, a ≤ u ∧ u < a+n ∧ u % n = t % n := by
  have ha : a % n < n := Nat.mod_lt _ hn
  have ht : t % n < n := Nat.mod_lt _ hn
  by_cases hle : a % n ≤ t % n
  · refine ⟨a + (t % n - a % n),by omega,by omega,?_⟩
    rw [add_mod_wrap a (by omega)]
    split <;> omega
  · refine ⟨a + (n + t % n - a % n),by omega,by omega,?_⟩
    rw [add_mod_wrap a (by omega)]
    split <;> omega

end Ring
