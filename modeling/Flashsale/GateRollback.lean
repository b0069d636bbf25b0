import Flashsale.Gate
import Flashsale.Transition
set_option autoImplicit false

/-!
Deductions and rollbacks on one SKU. The rollback script looks for the user,
not for the request, so a late second rollback meets whatever the user holds.
-/

namespace Flashsale.Cache
open Transition

def quantity (ms : Multiset Member) : Int := (ms.map (·.qty.toInt)).sum

def users (ms : Multiset Member) : Multiset UInt64 := ms.map Member.userId

@[simp] theorem quantity_cons (m : Member) (ms : Multiset Member) :
    quantity (m ::ₘ ms) = m.qty.toInt + quantity ms := by simp [quantity]

@[simp] theorem users_cons (m : Member) (ms : Multiset Member) :
    users (m ::ₘ ms) = m.userId ::ₘ users ms := Multiset.map_cons _ _ _

/-- The stock and the bought set are those of the requests deducted and not
rolled back, and each request was given back at most as often as deducted. -/
structure Conserved (stock : Int) (g : Gate) : Prop where
  once : g.givenBack ≤ g.deducted
  bought : ∀ u, u ∈ g.bought ↔ u ∈ users g.live
  single : (users g.live).Nodup
  stock : ∃ left, g.stock = some left ∧ left + quantity g.live = stock

theorem warmUp_conserved (qty : Int64) : Conserved qty.toInt (Gate.warmUp qty) where
  once := le_refl 0
  bought u := by simp [Gate.warmUp,Gate.empty,Gate.live,users]
  single := by simp [Gate.warmUp,Gate.empty,Gate.live,users]
  stock := ⟨qty.toInt,rfl,by simp [Gate.warmUp,Gate.empty,Gate.live,quantity]⟩

section Scripts
variable {stock : Int} {g g' : Gate} {m : Member}

theorem Conserved.deduct (h : Conserved stock g) (hd : Deducted g g' m)
    (hexact : m.luaQty = m.qty.toInt) : Conserved stock g' := by
  have hlive := hd.live h.once
  obtain ⟨left,hleft,-,hleft'⟩ := hd.stock
  refine ⟨?_,?_,?_,left - m.luaQty,hleft',?_⟩
  · rw [hd.givenBack,hd.deducted]
    exact h.once.trans (Multiset.le_cons_self _ _)
  · intro u
    simp [hd.bought,hlive,h.bought]
  · rw [hlive,users_cons,Multiset.nodup_cons]
    exact ⟨fun hu => hd.fresh ((h.bought _).mpr hu),h.single⟩
  · obtain ⟨left',hl,hsum⟩ := h.stock
    obtain rfl := Option.some.inj (hleft.symm.trans hl)
    rw [hlive,quantity_cons,← hsum,hexact]
    omega

theorem Conserved.rollback (h : Conserved stock g) (hr : RolledBack g g' m) (hm : m ∈ g.live)
    (hexact : m.luaQty = m.qty.toInt) : Conserved stock g' := by
  have hlive := hr.live
  obtain ⟨left,hleft,hsum⟩ := h.stock
  obtain ⟨left',hback,hleft'⟩ := hr.stock
  rw [hleft] at hback
  have hcons : m ::ₘ g.live.erase m = g.live := Multiset.cons_erase hm
  have hsingle := h.single
  rw [← hcons,users_cons,Multiset.nodup_cons] at hsingle
  refine ⟨?_,?_,?_,left',hleft',?_⟩
  · rw [hr.givenBack,hr.deducted,Multiset.le_iff_count]
    intro x
    have hx := Multiset.le_iff_count.mp h.once x
    rw [Multiset.count_cons]
    split
    · rename_i he
      have := Multiset.mem_sub.mp hm
      rw [he]
      omega
    · exact hx
  · intro u
    rw [hr.bought,hlive,Finset.mem_erase,h.bought,← hcons,users_cons,Multiset.mem_cons,hcons]
    constructor
    · rintro ⟨hne,hu⟩
      exact hu.resolve_left hne
    · intro hu
      exact ⟨fun he => hsingle.1 (he ▸ hu),.inr hu⟩
  · rw [hlive]
    exact hsingle.2
  · rw [← hcons,quantity_cons] at hsum
    rw [hlive,incrBy_eq_some hback,hexact,← hsum]
    omega

end Scripts

inductive Act where
  | deduct (m : Member) (timestamp : Int)
  | rollback (m : Member)

/-- Only requests that were deducted are ever rolled back, but any number of times. -/
def Gate.next (g : Gate) : Act → Option Gate
  | .deduct m timestamp => some (g.deduct m timestamp).2
  | .rollback m => if m ∈ g.deducted then some (g.rollback m).2 else none

def system (qty : Int64) : System Gate Act where
  init g := g = Gate.warmUp qty
  next := Gate.next

/-- A rollback that finds its user in the bought set finds its own request
pending, and Redis' arithmetic neither rounds nor overflows. -/
def OwnPurchase (g : Gate) : Act → Prop
  | .deduct m _ => g.Admits m → m.luaQty = m.qty.toInt
  | .rollback m =>
      m ∈ g.deducted → m.userId ∈ g.bought → m ∈ g.members ∧ incrBy g.stock m.luaQty ≠ none

structure Tracked (stock : Int) (g : Gate) : Prop extends Conserved stock g where
  pending : ∀ m, m ∈ g.members ↔ m ∈ g.live
  exact : ∀ m ∈ g.live, m.luaQty = m.qty.toInt

section Steps
variable {stock : Int} {g g' : Gate} {m : Member} {qty : Int64} {a : Act}

theorem Tracked.deduct (h : Tracked stock g) (hd : Deducted g g' m)
    (hexact : m.luaQty = m.qty.toInt) : Tracked stock g' := by
  have hlive := hd.live h.once
  refine ⟨h.toConserved.deduct hd hexact,?_,?_⟩
  · intro x
    rw [hd.members,hlive,Multiset.mem_cons,h.pending]
  · intro x hx
    rw [hlive,Multiset.mem_cons] at hx
    rcases hx with rfl | hx
    · exact hexact
    · exact h.exact x hx

theorem Tracked.rollback (h : Tracked stock g) (hr : RolledBack g g' m) (hm : m ∈ g.live) :
    Tracked stock g' := by
  have hlive := hr.live
  have hnodup : g.live.Nodup := Multiset.Nodup.of_map _ h.single
  refine ⟨h.toConserved.rollback hr hm (h.exact m hm),?_,?_⟩
  · intro x
    rw [hr.members,hlive,hnodup.mem_erase_iff,h.pending,and_comm]
  · intro x hx
    rw [hlive] at hx
    exact h.exact x (Multiset.mem_of_mem_erase hx)

theorem Tracked.next (h : Tracked stock g) (hp : OwnPurchase g a)
    (hn : (system qty).next g a = some g') : Tracked stock g' := by
  cases a with
  | deduct m timestamp =>
    obtain rfl : (g.deduct m timestamp).2 = g' := Option.some.inj hn
    rcases g.deduct_cases m timestamp with ⟨hr,hd⟩ | ⟨-,hg⟩
    · exact h.deduct hd (hp ((g.deduct_eq_one m timestamp).mp hr))
    · rwa [hg]
  | rollback m =>
    simp only [system,Gate.next] at hn
    split at hn
    · rename_i hm
      obtain rfl : (g.rollback m).2 = g' := Option.some.inj hn
      rcases g.rollback_cases m with
        ⟨hr,hb⟩ | ⟨-,-,hg⟩ | ⟨-,hu,hi,-⟩
      · exact h.rollback hb ((h.pending m).mp (hp hm hb.user).1)
      · rwa [hg]
      · exact absurd hi (hp hm hu).2
    · cases hn

theorem Tracked.need (h : Tracked stock g) (hn : (system qty).next g a = some g')
    (hc : Conserved stock g') : OwnPurchase g a := by
  cases a with
  | deduct m timestamp =>
    intro hadmits
    obtain rfl : (g.deduct m timestamp).2 = g' := Option.some.inj hn
    have hr := (g.deduct_eq_one m timestamp).mpr hadmits
    rcases g.deduct_cases m timestamp with ⟨-,hd⟩ | ⟨hr',-⟩
    · obtain ⟨left,hleft,-,hleft'⟩ := hd.stock
      obtain ⟨l,hl,hsum⟩ := h.stock
      obtain ⟨l',hl',hsum'⟩ := hc.stock
      obtain rfl := Option.some.inj (hleft.symm.trans hl)
      obtain rfl := Option.some.inj (hleft'.symm.trans hl')
      rw [hd.live h.once,quantity_cons] at hsum'
      omega
    · simp [hr] at hr'
  | rollback m =>
    intro hm hu
    simp only [system,Gate.next,if_pos hm,Option.some.injEq] at hn
    subst hn
    rcases g.rollback_cases m with
      ⟨-,hb⟩ | ⟨-,hu',-⟩ | ⟨-,-,-,hg⟩
    · have honce := Multiset.le_iff_count.mp hc.once m
      rw [hb.givenBack,hb.deducted,Multiset.count_cons_self] at honce
      obtain ⟨left,hleft,-⟩ := hb.stock
      refine ⟨(h.pending m).mpr (Multiset.mem_sub.mpr honce),?_⟩
      simp [hleft]
    · exact absurd hu hu'
    · -- the script removed the user and then failed, so a purchase lost its entry
      have hlost := (hc.bought m.userId).mpr
      rw [hg] at hlost
      simp only [Finset.mem_erase] at hlost
      exact absurd rfl (hlost ((h.bought _).mp hu)).1

/-- A rollback undoes only its own request, exactly in the runs where each one
that finds its user still finds its request. -/
theorem rollback_own_iff {qty : Int64} {as : List Act} {g : Gate}
    (h : (system qty).Run (Gate.warmUp qty) as g) :
    (system qty).Along OwnPurchase (Gate.warmUp qty) as ↔
      (system qty).Throughout (Conserved qty.toInt) (Gate.warmUp qty) as := by
  refine System.along_iff_throughout (J := Tracked qty.toInt) (fun _ h => h.toConserved)
    (fun _ _ _ h hp hn => h.next hp hn) (fun _ _ _ h hn hc => h.need hn hc) h ?_
  refine ⟨warmUp_conserved qty,?_,?_⟩
  · intro m
    simp [Gate.warmUp,Gate.empty,Gate.live,Gate.members]
  · intro m hm
    simp [Gate.warmUp,Gate.empty,Gate.live] at hm

end Steps

def firstOrder : Member := { skuId := 999, userId := 7, qty := 1, reqId := 1 }

def secondOrder : Member := { skuId := 999, userId := 7, qty := 2, reqId := 2 }

/-- The reply of the first rollback is lost, the user buys again, and the retry
takes the entry and the quantity of the second purchase. -/
def retryRun : List Act :=
  [.deduct firstOrder 0,.rollback firstOrder,.deduct secondOrder 1,.rollback firstOrder]

def retryState : Gate := ((system 10).exec (Gate.warmUp 10) retryRun).get (by decide +kernel)

theorem retryState_run : (system 10).Run (Gate.warmUp 10) retryRun retryState :=
  System.run_of_exec (Option.some_get _).symm

theorem retryState_not_conserved : ¬Conserved 10 retryState := by
  rintro ⟨-,-,-,left,hleft,hsum⟩
  have hstock : retryState.stock = some 9 := by decide +kernel
  have hlive : quantity retryState.live = 2 := by decide +kernel
  rw [hstock,Option.some.injEq] at hleft
  omega

theorem rollback_own_iff_retry : ¬(system 10).Along OwnPurchase (Gate.warmUp 10) retryRun :=
  fun h => retryState_not_conserved (((rollback_own_iff retryState_run).mp h).last retryState_run)

theorem retry_takes_other_purchase :
    (system 10).Run (Gate.warmUp 10) retryRun retryState ∧ retryState.live = {secondOrder} ∧
      retryState.bought = ∅ ∧ ¬Conserved 10 retryState :=
  ⟨retryState_run,by decide +kernel,by decide +kernel,retryState_not_conserved⟩

end Flashsale.Cache
