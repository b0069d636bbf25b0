import Flashsale.Strconv
set_option autoImplicit false

/-! Go's `fmt.Sscanf` with the verb `%d` and literal characters. -/

namespace Strconv

def cutoff : UInt64 := 0x8000000000000000

def parseSigned (neg : Bool) (s : List Char) : Int64 × Option NumError :=
  let un := parseUint s
  if un.2 = some .errSyntax then (0,some .errSyntax)
  else if ¬neg ∧ un.1 ≥ cutoff then ((cutoff - 1).toInt64,some .errRange)
  else if neg ∧ un.1 > cutoff then (-cutoff.toInt64,some .errRange)
  else (if neg then -un.1.toInt64 else un.1.toInt64,none)

/-- `ParseInt(s,10,64)`. -/
def parseInt (s : List Char) : Int64 × Option NumError :=
  match s with
  | [] => (0,some .errSyntax)
  | c :: cs =>
      if c = '+' then parseSigned false cs
      else if c = '-' then parseSigned true cs
      else parseSigned false s

theorem toDigits_head (n : Nat) : ∃ c cs, Nat.toDigits 10 n = c :: cs ∧ c.isDigit := by
  obtain ⟨c,cs,h⟩ := List.exists_cons_of_ne_nil (Nat.toDigits_ne_nil (n := n) (b := 10))
  exact ⟨c,cs,h,isDigit_of_mem (h ▸ List.mem_cons_self)⟩

theorem parseUint_toDigits {n : Nat} (h : n < 2^64) :
    parseUint (Nat.toDigits 10 n) = (n.toUInt64,none) := by
  rw [parseUint_digits Nat.toDigits_ne_nil fun c hc => isDigit_of_mem hc,value_toDigits,if_pos h]

theorem sign_of_digit {c : Char} (h : c.isDigit) : c ≠ '+' ∧ c ≠ '-' := by
  constructor
  · rintro rfl
    exact absurd h (by decide)
  · rintro rfl
    exact absurd h (by decide)

theorem parseSigned_toDigits (neg : Bool) {n : Nat} (h : if neg then n ≤ 2^63 else n < 2^63) :
    parseSigned neg (Nat.toDigits 10 n) =
      (if neg then -Int64.ofNat n else Int64.ofNat n,none) := by
  have hfit : n < 2^64 := by
    split at h <;> omega
  have hcut : cutoff.toNat = 2^63 := rfl
  have hval : n.toUInt64.toNat = n := by
    rw [Nat.toUInt64_eq]
    exact UInt64.toNat_ofNat_of_lt' hfit
  have hint : n.toUInt64.toInt64 = Int64.ofNat n := UInt64.toInt64_ofNat'
  simp only [parseSigned,parseUint_toDigits hfit,hint,ge_iff_le,gt_iff_lt,UInt64.le_iff_toNat_le,
    UInt64.lt_iff_toNat_lt,hval,hcut]
  cases neg with
  | false => simpa using h
  | true => simpa using h

/-- A number in decimal reads back, the least one included. -/
theorem parseInt_formatInt (i : Int64) : parseInt (formatInt i.toInt) = (i,none) := by
  have hlt := i.toInt_lt
  have hle := i.le_toInt
  have hi := i.ofInt_toInt
  cases hn : i.toInt with
  | ofNat n =>
    rw [hn] at hlt hi
    obtain ⟨c,cs,hcs,hc⟩ := toDigits_head n
    obtain ⟨hplus,hminus⟩ := sign_of_digit hc
    have hread := parseSigned_toDigits false (n := n) (Int.ofNat_lt.mp hlt)
    simp only [formatInt,hcs] at hread ⊢
    simp only [parseInt,if_neg hplus,if_neg hminus,hread]
    rw [← hi]
    rfl
  | negSucc n =>
    rw [hn] at hle hi
    have hfit : n + 1 ≤ 2^63 := by omega
    have hread := parseSigned_toDigits true hfit
    rw [formatInt,parseInt,if_neg (by decide),if_pos rfl,hread,if_pos rfl,← hi,Int.negSucc_eq,
      Int64.ofInt_neg]
    rfl

end Strconv

namespace Fmt
open Strconv

inductive ScanError where
  | unexpectedNewline
  | eof
  | expectedInteger
  | mismatch
  | num (err : NumError)
  deriving DecidableEq

def isSpace (c : Char) : Bool :=
  [(0x0009,0x000d),(0x0020,0x0020),(0x0085,0x0085),(0x00a0,0x00a0),(0x1680,0x1680),
    (0x2000,0x200a),(0x2028,0x2029),(0x202f,0x202f),(0x205f,0x205f),(0x3000,0x3000)].any
    fun rng => rng.1 ≤ c.toNat ∧ c.toNat ≤ rng.2

/-- `SkipSpace`; a newline is no space to `Sscanf`. -/
def skipSpace : List Char → Except ScanError (List Char)
  | [] => .ok []
  | c :: cs =>
      if c = '\n' then .error .unexpectedNewline
      else if isSpace c then skipSpace cs else .ok (c :: cs)

def notEOF (s : List Char) : Except ScanError Unit := if s = [] then .error .eof else .ok ()

/-- `scanNumber`: the digits at the beginning, and what follows. -/
def scanNumber (s : List Char) : Except ScanError (List Char × List Char) := do
  notEOF s
  match s.takeWhile Char.isDigit with
  | [] => .error .expectedInteger
  | digits => .ok (digits,s.dropWhile Char.isDigit)

def parsed {α : Type} (r : α × Option NumError) : Except ScanError α :=
  match r.2 with
  | none => .ok r.1
  | some err => .error (.num err)

def acceptSign (s : List Char) : List Char × List Char :=
  if s.head? = some '+' ∨ s.head? = some '-' then (s.take 1,s.tail) else ([],s)

def scanInt (s : List Char) : Except ScanError (Int64 × List Char) := do
  let s ← skipSpace s
  notEOF s
  let (sign,s) := acceptSign s
  let (digits,s) ← scanNumber s
  let i ← parsed (parseInt (sign ++ digits))
  return (i,s)

def scanUint (s : List Char) : Except ScanError (UInt64 × List Char) := do
  let s ← skipSpace s
  notEOF s
  let (digits,s) ← scanNumber s
  let i ← parsed (parseUint digits)
  return (i,s)

def literal (c : Char) : List Char → Except ScanError (List Char)
  | [] => .error .eof
  | c' :: cs => if c' = c then .ok cs else .error .mismatch

section RoundTrip
variable {rest : List Char}

/-- What follows a number does not go on with digits. -/
def Ends (rest : List Char) : Prop := ∀ c ∈ rest.head?, c.isDigit = false

theorem skipSpace_cons {c : Char} {cs : List Char} (h : c.isDigit ∨ c = '-') :
    skipSpace (c :: cs) = .ok (c :: cs) := by
  have hrange : 45 ≤ c.toNat ∧ c.toNat ≤ 57 := by
    rcases h with h | rfl
    · have hc : '0'.toNat ≤ c.toNat ∧ c.toNat ≤ '9'.toNat := by
        simpa [Char.isDigit,UInt32.le_iff_toNat_le] using h
      have h0 : '0'.toNat = 48 := rfl
      have h9 : '9'.toNat = 57 := rfl
      omega
    · decide
  have hnewline : c ≠ '\n' := by
    rintro rfl
    exact absurd hrange.1 (by decide)
  have hspace : isSpace c = false := by
    simp [isSpace]
    omega
  simp [skipSpace,hnewline,hspace]

theorem scanNumber_digits (n : Nat) (h : Ends rest) :
    scanNumber (Nat.toDigits 10 n ++ rest) = .ok (Nat.toDigits 10 n,rest) := by
  have hdigits : ∀ c ∈ Nat.toDigits 10 n, c.isDigit := fun c hc => isDigit_of_mem hc
  have htake : rest.takeWhile Char.isDigit = [] := by
    cases rest with
    | nil => rfl
    | cons c cs => simp [h c rfl]
  have hdrop : rest.dropWhile Char.isDigit = rest := by
    cases rest with
    | nil => rfl
    | cons c cs => simp [h c rfl]
  obtain ⟨c,cs,hcs,-⟩ := toDigits_head n
  rw [scanNumber,List.takeWhile_append_of_pos hdigits,List.dropWhile_append_of_pos hdigits,htake,
    hdrop,List.append_nil,hcs]
  rfl

theorem scanUint_format (n : UInt64) (h : Ends rest) :
    scanUint (formatInt n.toNat ++ rest) = .ok (n,rest) := by
  have hnum := scanNumber_digits n.toNat h
  have hparse := parseUint_toDigits n.toNat_lt
  rw [Nat.toUInt64_eq,UInt64.ofNat_toNat] at hparse
  obtain ⟨c,cs,hcs,hc⟩ := toDigits_head n.toNat
  change scanUint (Nat.toDigits 10 n.toNat ++ rest) = _
  rw [hcs,List.cons_append] at hnum ⊢
  rw [hcs] at hparse
  simp [scanUint,skipSpace_cons (.inl hc),notEOF,hnum,parsed,hparse,bind,Except.bind,pure,
    Except.pure]

theorem scanInt_format (i : Int64) (h : Ends rest) :
    scanInt (formatInt i.toInt ++ rest) = .ok (i,rest) := by
  have hparse := parseInt_formatInt i
  cases hn : i.toInt with
  | ofNat n =>
    rw [hn] at hparse
    have hnum := scanNumber_digits n h
    obtain ⟨c,cs,hcs,hc⟩ := toDigits_head n
    obtain ⟨hplus,hminus⟩ := sign_of_digit hc
    simp only [formatInt] at hparse ⊢
    rw [hcs,List.cons_append] at hnum ⊢
    rw [hcs] at hparse
    simp [scanInt,skipSpace_cons (.inl hc),notEOF,acceptSign,hplus,hminus,hnum,parsed,hparse,bind,
      Except.bind,pure,Except.pure]
  | negSucc n =>
    rw [hn] at hparse
    have hnum := scanNumber_digits (n + 1) h
    simp only [formatInt,List.cons_append] at hparse ⊢
    simp [scanInt,skipSpace_cons (.inr rfl),notEOF,acceptSign,hnum,parsed,hparse,bind,Except.bind,
      pure,Except.pure]

theorem ends_nil : Ends [] := nofun

theorem ends_cons {c : Char} (h : c.isDigit = false) : Ends (c :: rest) := by
  intro c' hc
  cases hc
  exact h

theorem literal_cons (c : Char) (rest : List Char) : literal c (c :: rest) = .ok rest := if_pos rfl

end RoundTrip
end Fmt
