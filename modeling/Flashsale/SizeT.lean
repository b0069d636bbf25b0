import Mathlib.Algebra.Notation.Defs
import Mathlib.Data.Nat.Bitwise
set_option autoImplicit false

/-!
The unsigned words a counter is kept in. `BitVec w` is the machine's `size_t`
of `w` bits, with its wrap; `Nat` is the counter that never wraps. `fits n`
says that the number `n` is a value of the word, and every law holds for the
numbers that fit.
-/

class SizeT (W : Type) extends Add W, Sub W, One W, AndOp W where
  ofNat : Nat → W
  val : W → Nat
  /-- `(intptr_t)a - (intptr_t)b`. -/
  dif : W → W → Int
  fits : Nat → Prop
  fits_mono : ∀ {m n}, fits n → m ≤ n → fits m
  val_fits : ∀ a, fits (val a)
  val_injective : Function.Injective val
  val_ofNat : ∀ {n}, fits n → val (ofNat n) = n
  val_one : fits 1 → val 1 = 1
  val_add : ∀ {a b}, fits (val a + val b) → val (a + b) = val a + val b
  val_sub : ∀ {a b}, val b ≤ val a → val (a - b) = val a - val b
  val_and : ∀ a b, val (a &&& b) = val a &&& val b
  dif_eq_zero : ∀ {a b}, dif a b = 0 ↔ a = b

namespace SizeT

instance : SizeT Nat where
  ofNat n := n
  val n := n
  dif a b := (a : Int) - b
  fits _ := True
  fits_mono _ _ := trivial
  val_fits _ := trivial
  val_injective _ _ h := h
  val_ofNat _ := rfl
  val_one _ := rfl
  val_add _ := rfl
  val_sub _ := rfl
  val_and _ _ := rfl
  dif_eq_zero := by omega

@[simp] theorem val_nat (n : Nat) : val n = n := rfl

instance (w : Nat) : SizeT (BitVec w) where
  one := 1#w
  ofNat n := BitVec.ofNat w n
  val := BitVec.toNat
  dif a b := (a - b).toInt
  fits n := n < 2^w
  fits_mono h k := Nat.lt_of_le_of_lt k h
  val_fits a := a.isLt
  val_injective _ _ h := BitVec.eq_of_toNat_eq h
  val_ofNat h := Nat.mod_eq_of_lt h
  val_one h := Nat.mod_eq_of_lt h
  val_add h := by rw [BitVec.toNat_add]; exact Nat.mod_eq_of_lt h
  val_sub h := BitVec.toNat_sub_of_le (BitVec.le_def.mpr h)
  val_and a b := BitVec.toNat_and a b
  dif_eq_zero {a b} := by
    rw [← BitVec.toInt_zero (w := w),BitVec.toInt_inj]
    exact ⟨fun h => by simpa using (BitVec.sub_eq_iff_eq_add).mp h,fun h => by simp [h]⟩

variable {W : Type} [SizeT W]

/-- `pos & mask` is the remainder by the power of two that the mask stands below. -/
theorem val_and_mask {pos mask : W} {k : Nat} (h : val mask + 1 = 2^k) :
    val (pos &&& mask) = val pos % 2^k := by
  have hm : val mask = 2^k - 1 := by omega
  rw [val_and,hm,Nat.and_two_pow_sub_one_eq_mod]

theorem val_succ {pos : W} (h : fits W (val pos + 1)) : val (pos + 1) = val pos + 1 := by
  have h1 : val (1 : W) = 1 := val_one (fits_mono h (by omega))
  rw [val_add (by rw [h1]; exact h),h1]

/-- `pos + mask + 1` is one round of the ring after `pos`. -/
theorem val_lap {pos mask : W} (h : fits W (val pos + (val mask + 1))) :
    val (pos + mask + 1) = val pos + (val mask + 1) := by
  have ha : val (pos + mask) = val pos + val mask := val_add (fits_mono h (by omega))
  rw [val_succ (by rw [ha]; exact fits_mono h (by omega)),ha]
  omega

section Wrap
variable {w : Nat}

theorem ofNat_val (a : BitVec w) : ofNat (val a) = a := val_injective (val_ofNat (val_fits a))

theorem ofNat_add (s t : Nat) : (ofNat (s+t) : BitVec w) = ofNat s + ofNat t :=
  BitVec.ofNat_add s t

theorem ofNat_succ (t : Nat) : (ofNat t : BitVec w) + 1 = ofNat (t+1) := (ofNat_add t 1).symm

theorem ofNat_lap {mask : BitVec w} {n : Nat} (h : val mask + 1 = n) (t : Nat) :
    ofNat t + mask + 1 = ofNat (t+n) := by
  rw [← h,← Nat.add_assoc,← ofNat_succ,ofNat_add,ofNat_val]

theorem ofNat_slot {mask : BitVec w} {k : Nat} (h : val mask + 1 = 2^k) (hw : k ≤ w) (t : Nat) :
    val ((ofNat t : BitVec w) &&& mask) = t % 2^k := by
  rw [val_and_mask h]
  exact Nat.mod_mod_of_dvd t (Nat.pow_dvd_pow 2 hw)

/-- The difference of two counters is read right while they are less than half the
word apart, wherever they stand. -/
theorem dif_ofNat {a b : Nat} (hw : 0 < w) (hlow : b ≤ a + 2^(w-1)) (hhigh : a < b + 2^(w-1)) :
    dif (ofNat a : BitVec w) (ofNat b) = (a : Int) - b := by
  have hp : 2^w = 2 * 2^(w-1) := by rw [← Nat.pow_succ']; congr 1; omega
  have hd : dif (ofNat a : BitVec w) (ofNat b) = ((a : Int) - b).bmod (2^w) := by
    change (BitVec.ofNat w a - BitVec.ofNat w b).toInt = _
    rw [BitVec.toInt_sub,BitVec.toInt_ofNat',BitVec.toInt_ofNat',Int.sub_bmod_bmod,
      Int.bmod_sub_bmod]
  rw [hd,hp]
  exact Int.bmod_eq_of_le (by omega) (by omega)

theorem dif_neg_iff {a b : BitVec w} (hw : 0 < w) (hlow : val b ≤ val a + 2^(w-1))
    (hhigh : val a < val b + 2^(w-1)) : dif a b < 0 ↔ val a < val b := by
  have hd : dif (ofNat (val a) : BitVec w) (ofNat (val b)) = (val a : Int) - val b :=
    dif_ofNat hw hlow hhigh
  rw [ofNat_val,ofNat_val] at hd
  omega

end Wrap

end SizeT
