import Flashsale.Worker
import Mathlib.Algebra.BigOperators.Group.Multiset.Basic
import Mathlib.Data.Finset.Basic
import Mathlib.Tactic.Linarith
set_option autoImplicit false

/-!
The keys Redis holds for one SKU: `stock`, `bought` and `pending`, and what the
two Lua scripts, `ZREM` and `ZRANGEBYSCORE` do to them.
-/

namespace Flashsale.Cache

structure Member where
  skuId : Int64
  userId : UInt64
  qty : Int64
  reqId : UInt64
  deriving DecidableEq, Inhabited

/-- The double next to a natural number, ties to the even significand. -/
def roundDouble (n : Nat) : Nat :=
  let unit := 2^(n.log2 - 52)
  let q := n/unit
  let r := n%unit
  if 2*r < unit ∨ 2*r = unit ∧ q%2 = 0 then q*unit else (q + 1)*unit

def luaNumber (n : Int) : Int := n.sign*roundDouble n.natAbs

def Member.luaQty (m : Member) : Int := luaNumber m.qty.toInt

/-- `INCRBY`, which starts a missing key at 0. It fails where the increment is
no longer written as an integer (`%.17g`) and where the result has over 64 bits. -/
def incrBy (stock : Option Int) (n : Int) : Option Int :=
  let v := stock.getD 0 + n
  if n.natAbs < 10^17 ∧ -2^63 ≤ v ∧ v < 2^63 then some v else none

/-- `deducted` and `givenBack` are history: the requests each script returned 1
for. No command reads them. -/
structure Gate where
  stock : Option Int
  bought : Finset UInt64
  pending : List (Member × Int)
  deducted : Multiset Member
  givenBack : Multiset Member

def Gate.empty : Gate where
  stock := none
  bought := ∅
  pending := []
  deducted := 0
  givenBack := 0

def Gate.warmUp (qty : Int64) : Gate := { Gate.empty with stock := some qty.toInt }

def Gate.members (g : Gate) : List Member := g.pending.map Prod.fst

def Gate.zadd (g : Gate) (m : Member) (timestamp : Int) : Gate :=
  { g with pending := (m,timestamp) :: g.pending.filter (·.1 ≠ m) }

def Gate.zrem (g : Gate) (ms : List Member) : Gate :=
  { g with pending := g.pending.filter (·.1 ∉ ms) }

def Gate.stale (g : Gate) (limit : Int) : List Member :=
  (g.pending.filter (·.2 ≤ limit)).map Prod.fst

/-- `script`; an error of `DECRBY` ends it before anything is written. -/
def Gate.deduct (g : Gate) (m : Member) (timestamp : Int) : Option Int × Gate :=
  if m.userId ∈ g.bought then (some (-1),g)
  else
    match g.stock with
    | none => (some (-2),g)
    | some stock =>
        if luaNumber stock < m.luaQty then (some 0,g)
        else
          match incrBy g.stock (-m.luaQty) with
          | none => (none,g)
          | some stock =>
              (some 1,{ g with
                stock := some stock
                bought := insert m.userId g.bought
                deducted := m ::ₘ g.deducted }.zadd m timestamp)

def Gate.Admits (g : Gate) (m : Member) : Prop :=
  m.userId ∉ g.bought ∧
    ∃ stock, g.stock = some stock ∧ m.luaQty ≤ luaNumber stock ∧
      incrBy (some stock) (-m.luaQty) ≠ none

/-- `rollbackScript`; an error of `INCRBY` comes after the `SREM`. -/
def Gate.rollback (g : Gate) (m : Member) : Option Int × Gate :=
  if m.userId ∈ g.bought then
    let g := { g with bought := g.bought.erase m.userId }
    match incrBy g.stock m.luaQty with
    | none => (none,g)
    | some stock =>
        (some 1,{ g with stock := some stock, givenBack := m ::ₘ g.givenBack }.zrem [m])
  else (some 0,g)

/-- The requests that were deducted and not rolled back. -/
def Gate.live (g : Gate) : Multiset Member := g.deducted - g.givenBack

theorem roundDouble_of_lt {n : Nat} (h : n < 2^53) : roundDouble n = n := by
  have hlog : n.log2 ≤ 52 := by
    by_cases h0 : n = 0
    · simp [h0]
    · have := (Nat.log2_lt h0).mpr h
      omega
  have hsub : n.log2 - 52 = 0 := by omega
  simp [roundDouble,hsub,Nat.mod_one]

theorem luaNumber_of_lt {n : Int} (h : n.natAbs < 2^53) : luaNumber n = n := by
  rw [luaNumber,roundDouble_of_lt h,Int.sign_mul_natAbs]

theorem luaNumber_nonpos {n : Int} (h : n ≤ 0) : luaNumber n ≤ 0 := by
  have hs : n.sign ≤ 0 := Int.sign_nonpos_iff.mpr h
  exact mul_nonpos_of_nonpos_of_nonneg hs (Int.natCast_nonneg _)

/-- The stock check is exact for quantities a double represents. -/
theorem le_of_luaNumber {stock q : Int} (hq : 1 ≤ q) (hq' : q < 2^53)
    (h : q ≤ luaNumber stock) : q ≤ stock := by
  by_cases hneg : stock ≤ 0
  · have := luaNumber_nonpos hneg
    omega
  by_cases hbig : stock.natAbs < 2^53
  · rwa [luaNumber_of_lt hbig] at h
  · omega

theorem incrBy_eq_some {stock v n : Int} (h : incrBy (some stock) n = some v) :
    v = stock + n := by
  simp only [incrBy,Option.getD_some] at h
  split at h
  · exact (Option.some.inj h).symm
  · cases h

theorem incrBy_isSome {stock n : Int} (hn : n.natAbs < 10^17) (hl : -2^63 ≤ stock + n)
    (hu : stock + n < 2^63) : incrBy (some stock) n = some (stock + n) := if_pos ⟨hn,hl,hu⟩

/-- The conversion to `C.int` keeps the quantity. -/
def Member.Fits (m : Member) : Prop := m.qty.toInt32.toInt64 = m.qty

instance (m : Member) : Decidable m.Fits := inferInstanceAs (Decidable (_ = _))

section Fits
variable {m : Member}

theorem Member.Fits.toInt (h : m.Fits) : m.qty.toInt32.toInt = m.qty.toInt := by
  have := congrArg Int64.toInt h
  rwa [Int32.toInt_toInt64] at this

theorem Member.fits_iff : m.Fits ↔ -2^31 ≤ m.qty.toInt ∧ m.qty.toInt < 2^31 := by
  constructor
  · intro h
    have hle := m.qty.toInt32.le_toInt
    have hlt := m.qty.toInt32.toInt_lt
    rw [h.toInt] at hle hlt
    omega
  · rintro ⟨hl,hu⟩
    refine Int64.toInt_inj.mp ?_
    rw [Int32.toInt_toInt64,Int64.toInt_toInt32]
    exact Int.bmod_eq_of_le (by omega) (by omega)

theorem Member.Fits.luaQty (h : m.Fits) : m.luaQty = m.qty.toInt := by
  obtain ⟨hl,hu⟩ := Member.fits_iff.mp h
  exact luaNumber_of_lt (by omega)

end Fits

section Members
variable {g : Gate} {m x : Member}

@[simp] theorem Gate.mem_zadd {timestamp : Int} :
    x ∈ (g.zadd m timestamp).members ↔ x = m ∨ x ∈ g.members := by
  by_cases h : x = m
  · simp [Gate.zadd,Gate.members,h]
  · simp [Gate.zadd,Gate.members,h]

@[simp] theorem Gate.mem_zrem {ms : List Member} :
    x ∈ (g.zrem ms).members ↔ x ∈ g.members ∧ x ∉ ms := by
  simp only [Gate.zrem,Gate.members,List.mem_map,List.mem_filter,decide_eq_true_eq]
  constructor
  · rintro ⟨p,⟨hp,hn⟩,rfl⟩
    exact ⟨⟨p,hp,rfl⟩,hn⟩
  · rintro ⟨⟨p,hp,rfl⟩,hn⟩
    exact ⟨p,⟨hp,hn⟩,rfl⟩

end Members

structure Deducted (g g' : Gate) (m : Member) : Prop where
  fresh : m.userId ∉ g.bought
  stock : ∃ st, g.stock = some st ∧ m.luaQty ≤ luaNumber st ∧ g'.stock = some (st - m.luaQty)
  bought : g'.bought = insert m.userId g.bought
  members : ∀ x, x ∈ g'.members ↔ x = m ∨ x ∈ g.members
  deducted : g'.deducted = m ::ₘ g.deducted
  givenBack : g'.givenBack = g.givenBack

structure RolledBack (g g' : Gate) (m : Member) : Prop where
  user : m.userId ∈ g.bought
  stock : ∃ left, incrBy g.stock m.luaQty = some left ∧ g'.stock = some left
  bought : g'.bought = g.bought.erase m.userId
  members : ∀ x, x ∈ g'.members ↔ x ∈ g.members ∧ x ≠ m
  deducted : g'.deducted = g.deducted
  givenBack : g'.givenBack = m ::ₘ g.givenBack

section Scripts
variable {g g' : Gate} {m : Member}

theorem Gate.deduct_cases (g : Gate) (m : Member) (timestamp : Int) :
    ((g.deduct m timestamp).1 = some 1 ∧ Deducted g (g.deduct m timestamp).2 m) ∨
    ((g.deduct m timestamp).1 ∈ [none,some 0,some (-1),some (-2)] ∧
      (g.deduct m timestamp).2 = g) := by
  unfold Gate.deduct
  split
  · exact .inr ⟨by simp,rfl⟩
  rename_i hfresh
  cases hstock : g.stock with
  | none => exact .inr ⟨by simp,rfl⟩
  | some stock =>
    dsimp only
    split
    · exact .inr ⟨by simp,rfl⟩
    rename_i hlt
    cases hincr : incrBy (some stock) (-m.luaQty) with
    | none => exact .inr ⟨by simp,rfl⟩
    | some left =>
      have hleft := incrBy_eq_some hincr
      left
      refine ⟨rfl,hfresh,⟨stock,hstock,not_lt.mp hlt,?_⟩,rfl,fun x => Gate.mem_zadd,rfl,rfl⟩
      simp [Gate.zadd,hleft,sub_eq_add_neg]

theorem Gate.deduct_eq_one (g : Gate) (m : Member) (timestamp : Int) :
    (g.deduct m timestamp).1 = some 1 ↔ g.Admits m := by
  unfold Gate.deduct Gate.Admits
  split
  · rename_i hu
    simp [hu]
  rename_i hu
  cases hs : g.stock with
  | none => simp
  | some stock =>
    dsimp only
    split
    · rename_i hlt
      simp [not_le.mpr hlt]
    · rename_i hle
      cases hi : incrBy (some stock) (-m.luaQty) with
      | none => simp [hi]
      | some left => simp [hi,hu,not_lt.mp hle]

instance (g : Gate) (m : Member) : Decidable (g.Admits m) :=
  decidable_of_iff _ (g.deduct_eq_one m 0)

theorem Gate.rollback_cases (g : Gate) (m : Member) :
    ((g.rollback m).1 = some 1 ∧ RolledBack g (g.rollback m).2 m) ∨
    ((g.rollback m).1 = some 0 ∧ m.userId ∉ g.bought ∧ (g.rollback m).2 = g) ∨
    ((g.rollback m).1 = none ∧ m.userId ∈ g.bought ∧ incrBy g.stock m.luaQty = none ∧
      (g.rollback m).2 = { g with bought := g.bought.erase m.userId }) := by
  unfold Gate.rollback
  split
  · rename_i huser
    dsimp only
    cases hincr : incrBy g.stock m.luaQty with
    | none => exact .inr (.inr ⟨rfl,huser,rfl,rfl⟩)
    | some stock =>
      left
      refine ⟨rfl,huser,⟨stock,hincr,rfl⟩,rfl,fun x => ?_,rfl,rfl⟩
      rw [Gate.mem_zrem,List.mem_singleton]
      rfl
  · rename_i huser
    exact .inr (.inl ⟨rfl,huser,rfl⟩)

theorem Deducted.live (h : Deducted g g' m) (hle : g.givenBack ≤ g.deducted) :
    g'.live = m ::ₘ g.live := by
  rw [Gate.live,h.deducted,h.givenBack,Multiset.cons_sub_of_le m hle]
  rfl

theorem Deducted.mem_live {x : Member} (h : Deducted g g' m) (hx : x ∈ g'.live) :
    x = m ∨ x ∈ g.live := by
  rw [Gate.live,h.deducted,h.givenBack,Multiset.mem_sub,Multiset.count_cons] at hx
  by_cases he : x = m
  · exact .inl he
  · rw [if_neg he] at hx
    exact .inr (Multiset.mem_sub.mpr hx)

theorem RolledBack.live (h : RolledBack g g' m) : g'.live = g.live.erase m := by
  rw [Gate.live,h.deducted,h.givenBack,← Multiset.singleton_add,add_comm,
    Multiset.sub_add_eq_sub_sub,Multiset.sub_singleton]
  rfl

end Scripts
end Flashsale.Cache
