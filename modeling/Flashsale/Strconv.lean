import Mathlib
set_option autoImplicit false

namespace Strconv

def formatInt : Int → List Char
  | .ofNat n => Nat.toDigits 10 n
  | .negSucc n => '-' :: Nat.toDigits 10 (n + 1)

inductive NumError where
  | errSyntax
  | errRange
  deriving DecidableEq

def maxUint64 : UInt64 := 0xFFFFFFFFFFFFFFFF

/-- The value of a digit. -/
def digitOf (c : Char) : UInt64 := (c.toNat - '0'.toNat).toUInt64

def parseDigits (n : UInt64) : List Char → UInt64 × Option NumError
  | [] => (n,none)
  | c :: cs =>
      if c.isDigit then
        if n ≥ maxUint64/10 + 1 then (maxUint64,some .errRange)
        else
          let n1 := n*10 + digitOf c
          if n1 < n*10 then (maxUint64,some .errRange) else parseDigits n1 cs
      else (0,some .errSyntax)

def parseUint (s : List Char) : UInt64 × Option NumError :=
  if s = [] then (0,some .errSyntax) else parseDigits 0 s

/-- The number that a text of digits writes. -/
def value (s : List Char) : Nat := Nat.ofDigitChars 10 s 0

section Format
variable {c : Char} {n : Nat} {i j : Int}

theorem isDigit_of_mem (h : c ∈ Nat.toDigits 10 n) : c.isDigit :=
  Nat.isDigit_of_mem_toDigits (by decide) (by decide) h

theorem value_toDigits (n : Nat) : value (Nat.toDigits 10 n) = n := Nat.ofDigitChars_ten_toDigits

theorem toDigits_injective {m : Nat} (h : Nat.toDigits 10 n = Nat.toDigits 10 m) : n = m := by
  rw [← value_toDigits n,h,value_toDigits]

theorem cons_minus_ne {s : List Char} : '-' :: s ≠ Nat.toDigits 10 n := by
  intro h
  have hd : '-'.isDigit := isDigit_of_mem (h ▸ List.mem_cons_self)
  exact absurd hd (by decide)

theorem formatInt_injective (h : formatInt i = formatInt j) : i = j := by
  cases i with
  | ofNat n =>
    cases j with
    | ofNat m => rw [toDigits_injective h]
    | negSucc m => exact absurd h.symm cons_minus_ne
  | negSucc n =>
    cases j with
    | ofNat m => exact absurd h cons_minus_ne
    | negSucc m =>
      have := toDigits_injective (List.cons.inj h).2
      simp only [Nat.add_right_cancel_iff] at this
      rw [this]

theorem mem_formatInt (h : c ∈ formatInt i) : c.isDigit ∨ c = '-' := by
  cases i with
  | ofNat n => exact .inl (isDigit_of_mem h)
  | negSucc n =>
    rcases List.mem_cons.mp h with h | h
    · exact .inr h
    · exact .inl (isDigit_of_mem h)

end Format

section Parse
variable {s cs : List Char} {c : Char} {n : UInt64}

theorem digitOf_toNat (h : c.isDigit) : (digitOf c).toNat = c.toNat - '0'.toNat ∧
    c.toNat - '0'.toNat < 10 := by
  have hc : '0'.toNat ≤ c.toNat ∧ c.toNat ≤ '9'.toNat := by
    simpa [Char.isDigit,UInt32.le_iff_toNat_le] using h
  have h0 : '0'.toNat = 48 := rfl
  have h9 : '9'.toNat = 57 := rfl
  refine ⟨?_,by omega⟩
  rw [digitOf,Nat.toUInt64_eq,UInt64.toNat_ofNat']
  omega

theorem le_ofDigitChars (cs : List Char) (n : Nat) : n ≤ Nat.ofDigitChars 10 cs n := by
  rw [Nat.ofDigitChars_eq_ofDigitChars_zero]
  have hpow : 0 < 10^cs.length := Nat.pow_pos (by decide)
  exact Nat.le_trans (Nat.le_mul_of_pos_left n hpow) (Nat.le_add_right _ _)

theorem parseDigits_cons (h : c.isDigit) : parseDigits n (c :: cs) =
    if 10*n.toNat + (c.toNat - '0'.toNat) < 2^64 then parseDigits (n*10 + digitOf c) cs
    else (maxUint64,some .errRange) := by
  obtain ⟨hd,hlt⟩ := digitOf_toNat h
  have hcut : (maxUint64/10 + 1).toNat = 1844674407370955162 := rfl
  have hn := n.toNat_lt
  rw [parseDigits,if_pos h]
  by_cases hbig : n ≥ maxUint64/10 + 1
  · have hle := UInt64.le_iff_toNat_le.mp hbig
    rw [if_pos hbig,if_neg (by omega)]
  have hle : n.toNat < 1844674407370955162 := by
    rw [← hcut]
    exact UInt64.lt_iff_toNat_lt.mp (UInt64.not_le.mp hbig)
  have hmul : (n*10).toNat = 10*n.toNat := by
    rw [UInt64.toNat_mul]
    change n.toNat*10%2^64 = _
    omega
  have hsum : (n*10 + digitOf c).toNat = (10*n.toNat + (c.toNat - '0'.toNat))%2^64 := by
    rw [UInt64.toNat_add,hmul,hd]
  simp only [if_neg hbig,UInt64.lt_iff_toNat_lt,hmul,hsum]
  by_cases hfit : 10*n.toNat + (c.toNat - '0'.toNat) < 2^64
  · rw [if_neg (by omega),if_pos hfit]
  · rw [if_pos (by omega),if_neg hfit]

theorem parseDigits_digits (h : ∀ c ∈ cs, c.isDigit) : parseDigits n cs =
    if Nat.ofDigitChars 10 cs n.toNat < 2^64 then ((Nat.ofDigitChars 10 cs n.toNat).toUInt64,none)
    else (maxUint64,some .errRange) := by
  induction cs generalizing n with
  | nil =>
    have hn := n.toNat_lt
    simp [parseDigits,hn]
  | cons c cs ih =>
    have hc := h c List.mem_cons_self
    obtain ⟨hd,hlt⟩ := digitOf_toNat hc
    rw [parseDigits_cons hc,Nat.ofDigitChars_cons]
    by_cases hfit : 10*n.toNat + (c.toNat - '0'.toNat) < 2^64
    · have hsum : (n*10 + digitOf c).toNat = 10*n.toNat + (c.toNat - '0'.toNat) := by
        rw [UInt64.toNat_add,UInt64.toNat_mul,hd]
        change (n.toNat*10%2^64 + _)%2^64 = _
        omega
      rw [if_pos hfit,ih fun c hc => h c (List.mem_cons_of_mem _ hc),hsum]
    · have hle := le_ofDigitChars cs (10*n.toNat + (c.toNat - '0'.toNat))
      rw [if_neg hfit,if_neg (by omega)]

theorem parseDigits_other (h : ∃ c ∈ cs, c.isDigit = false) :
    parseDigits n cs = (0,some .errSyntax) ∨ parseDigits n cs = (maxUint64,some .errRange) := by
  induction cs generalizing n with
  | nil => simp at h
  | cons c cs ih =>
    cases hc : c.isDigit with
    | false => simp [parseDigits,hc]
    | true =>
      have hrest : ∃ c ∈ cs, c.isDigit = false := by simpa [hc] using h
      rw [parseDigits_cons hc]
      split
      · exact ih hrest
      · exact .inr rfl

theorem parseUint_digits (hs : s ≠ []) (h : ∀ c ∈ s, c.isDigit) : parseUint s =
    if value s < 2^64 then ((value s).toUInt64,none) else (maxUint64,some .errRange) := by
  rw [parseUint,if_neg hs,parseDigits_digits h]
  rfl

/-- `ParseUint` gives a number below the largest exactly for the texts of its digits. -/
theorem parseUint_eq_iff {v : UInt64} (hpos : 0 < v) (hmax : v < maxUint64) :
    (parseUint s).1 = v ↔ s ≠ [] ∧ (∀ c ∈ s, c.isDigit) ∧ value s = v.toNat := by
  have hzero : (0 : UInt64) ≠ v := UInt64.ne_of_lt hpos
  have hlast : maxUint64 ≠ v := (UInt64.ne_of_lt hmax).symm
  by_cases hs : s = []
  · simp [parseUint,hs,hzero]
  by_cases hdig : ∀ c ∈ s, c.isDigit
  · rw [parseUint_digits hs hdig]
    have hv := v.toNat_lt
    by_cases hfit : value s < 2^64
    · rw [if_pos hfit,← UInt64.toNat_inj]
      change (value s).toUInt64.toNat = v.toNat ↔ _
      rw [Nat.toUInt64_eq,UInt64.toNat_ofNat',Nat.mod_eq_of_lt hfit]
      exact ⟨fun h => ⟨hs,hdig,h⟩,fun h => h.2.2⟩
    · rw [if_neg hfit]
      exact ⟨fun h => absurd h hlast,fun h => absurd (h.2.2 ▸ hv) hfit⟩
  · have hother : ∃ c ∈ s, c.isDigit = false := by simpa using hdig
    rw [parseUint,if_neg hs]
    rcases parseDigits_other (n := 0) hother with h | h
    · rw [h]
      exact ⟨fun h => absurd h hzero,fun h => absurd h.2.1 hdig⟩
    · rw [h]
      exact ⟨fun h => absurd h hlast,fun h => absurd h.2.1 hdig⟩

end Parse
end Strconv
