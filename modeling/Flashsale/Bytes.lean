import Mathlib.Algebra.Order.Group.Nat
import Mathlib.Data.List.Basic
import Mathlib.Tactic.Ring
set_option autoImplicit false

/-!
Integers written as a number of bytes, and files read in frames of one size, up
to the first frame that is cut short.
-/

namespace Bytes

/-- The lowest `width` bytes of `n`, the least first. -/
def encode : Nat → Nat → List UInt8
  | 0, _ => []
  | width+1, n => UInt8.ofNat n :: encode width (n/256)

def decode : List UInt8 → Nat
  | [] => 0
  | b :: bytes => b.toNat + 256*decode bytes

@[simp] theorem encode_length (width n : Nat) : (encode width n).length = width := by
  induction width generalizing n with
  | zero => rfl
  | succ width ih => simp [encode,ih]

theorem decode_encode {width n : Nat} (h : n < 256^width) : decode (encode width n) = n := by
  induction width generalizing n with
  | zero => simp_all [encode,decode]
  | succ width ih =>
    have hdiv : n/256 < 256^width := by
      rw [Nat.div_lt_iff_lt_mul (by decide)]
      rwa [pow_succ] at h
    have hbyte : (UInt8.ofNat n).toNat = n%256 := by simp
    rw [encode,decode,ih hdiv,hbyte]
    omega

section Frames
variable {α : Type} {size : Nat} {x xs tail : List α} {xss : List (List α)}

/-- The whole frames of `size` elements that a reader gets one after another. -/
def frames (size : Nat) (xs : List α) : List (List α) :=
  if _h : 0 < size ∧ size ≤ xs.length then xs.take size :: frames size (xs.drop size) else []
termination_by xs.length
decreasing_by simp; omega

theorem frames_of_lt (h : xs.length < size) : frames size xs = [] := by
  rw [frames,dif_neg (by omega)]

theorem frames_append (hs : 0 < size) (hx : x.length = size) :
    frames size (x ++ xs) = x :: frames size xs := by
  subst hx
  rw [frames,dif_pos ⟨hs,by simp⟩]
  simp

theorem frames_flatten (hs : 0 < size) (h : ∀ x ∈ xss, x.length = size) (ht : tail.length < size) :
    frames size (xss.flatten ++ tail) = xss := by
  induction xss with
  | nil => exact frames_of_lt (by simpa using ht)
  | cons x xss ih =>
    rw [List.flatten_cons,List.append_assoc,frames_append hs (h x (by simp)),
      ih fun y hy => h y (by simp [hy])]

/-- A file of frames cut anywhere gives the frames that lie before the cut. -/
theorem frames_take (hs : 0 < size) (h : ∀ x ∈ xss, x.length = size) (n : Nat) :
    frames size (xss.flatten.take n) = xss.take (n/size) := by
  induction xss generalizing n with
  | nil => simpa using frames_of_lt hs
  | cons x xss ih =>
    have hx := h x (by simp)
    rcases lt_or_ge n size with hlt | hge
    · rw [Nat.div_eq_of_lt hlt,List.take_zero]
      refine frames_of_lt ?_
      rw [List.length_take]
      omega
    · obtain ⟨m,rfl⟩ := Nat.exists_eq_add_of_le hge
      have htake : (x :: xss).flatten.take (size + m) = x ++ xss.flatten.take m := by
        rw [List.flatten_cons,List.take_append,List.take_of_length_le (by omega),hx,
          Nat.add_sub_cancel_left]
      rw [htake,frames_append hs hx,ih fun y hy => h y (by simp [hy]),Nat.add_div_left m hs,
        List.take_succ_cons]

end Frames
end Bytes
