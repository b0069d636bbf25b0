import Flashsale.CoreEngine
import Flashsale.Oversell
set_option autoImplicit false

/-!
What a worker is for: a shop that serves its requests one after another and answers
each id once. What it sells of an item and what is left make up what it opened with.
-/

namespace Flashsale.CoreEngine
open Engine (barrierId remember)

/-- The stock of each item, and the ids answered. -/
structure Shop where
  stock : Int64 → Option Int32
  seen : List UInt64

def Shop.opened : Shop := ⟨initialInventory,[]⟩

/-- A request is answered unless it is a barrier or its id is known. -/
def Shop.serve (s : Shop) (req : Request) : Shop × Option CSeckillResult :=
  if req.requestId = barrierId ∨ req.requestId ∈ s.seen then (s,none)
  else
    let s := { s with seen := remember s.seen req.requestId }
    match s.stock req.skuId with
    | none => (s,some (req.result 0))
    | some n =>
        if req.qty ≤ n then
          ({ s with stock := Function.update s.stock req.skuId (some (n - req.qty)) },
            some (req.result 1))
        else (s,some (req.result 2))

def Shop.after (s : Shop) (reqs : List Request) : Shop := reqs.foldl (fun s req => (s.serve req).1) s

def Shop.answers (s : Shop) : List Request → List CSeckillResult
  | [] => []
  | req :: reqs => (s.serve req).2.toList ++ (s.serve req).1.answers reqs

def sold (sku : Int64) (results : List CSeckillResult) : Int :=
  ((results.filter fun res => res.status = 1 ∧ res.skuId = sku).map (·.qty.toInt)).sum

def asked (sku : Int64) (reqs : List Request) : Nat :=
  reqs.countP fun req => req.skuId = sku ∧ req.requestId ≠ barrierId

def ordinaryIds (reqs : List Request) : List UInt64 :=
  (reqs.filter (·.requestId ≠ barrierId)).map (·.requestId)

section Shop
variable {s : Shop} {req : Request} {reqs more : List Request} {sku : Int64} {n : Int32}
  {results results' : List CSeckillResult}

theorem Shop.after_concat : s.after (reqs ++ [req]) = ((s.after reqs).serve req).1 := by
  simp [Shop.after]

theorem Shop.after_append : s.after (reqs ++ more) = (s.after reqs).after more := List.foldl_append

theorem Shop.answers_append : s.answers (reqs ++ more) = s.answers reqs ++ (s.after reqs).answers more := by
  induction reqs generalizing s with
  | nil => rfl
  | cons req reqs ih => simp [Shop.answers,Shop.after,ih]

theorem Shop.answers_concat :
    s.answers (reqs ++ [req]) = s.answers reqs ++ ((s.after reqs).serve req).2.toList := by
  rw [Shop.answers_append]
  simp [Shop.answers]

theorem Shop.answers_prefix (h : reqs <+: more) : s.answers reqs <+: s.answers more := by
  obtain ⟨rest,rfl⟩ := h
  rw [Shop.answers_append]
  exact List.prefix_append _ _

theorem Shop.serve_barrier (h : req.requestId = barrierId) : s.serve req = (s,none) := by
  simp [Shop.serve,h]

theorem sold_append : sold sku (results ++ results') = sold sku results + sold sku results' := by
  simp [sold]

theorem sold_single (res : CSeckillResult) :
    sold sku [res] = if res.status = 1 ∧ res.skuId = sku then res.qty.toInt else 0 := by
  by_cases h : res.status = 1 ∧ res.skuId = sku <;> simp [sold,h]

theorem sold_nonneg (h : ∀ res ∈ results, 0 ≤ res.qty.toInt) : 0 ≤ sold sku results := by
  refine List.sum_nonneg fun q hq => ?_
  obtain ⟨res,hres,rfl⟩ := List.mem_map.mp hq
  exact h res (List.mem_of_mem_filter hres)

/-- A request moves what it buys from the stock to what is sold. -/
theorem Shop.serve_balance (hq : 0 ≤ req.qty.toInt) (hs : s.stock sku = some n) (hn : 0 ≤ n.toInt) :
    ∃ m, (s.serve req).1.stock sku = some m ∧ 0 ≤ m.toInt ∧
      m.toInt + sold sku (s.serve req).2.toList = n.toInt := by
  unfold Shop.serve
  split
  · exact ⟨n,hs,hn,by simp [sold]⟩
  · dsimp only
    cases hstock : s.stock req.skuId with
    | none => exact ⟨n,hs,hn,by simp [sold,Request.result]⟩
    | some k =>
      dsimp only
      split
      · rename_i hle
        by_cases hsku : req.skuId = sku
        · subst hsku
          obtain rfl : n = k := Option.some.inj (hs.symm.trans hstock)
          have hsub := Engine.toInt_sub_of_le hq (Int32.le_iff_toInt_le.mp hle)
          have hle' := Int32.le_iff_toInt_le.mp hle
          refine ⟨n - req.qty,by simp,by omega,?_⟩
          simp only [Option.toList_some,sold_single,Request.result,and_self,if_true]
          omega
        · exact ⟨n,by simp [Ne.symm hsku,hs],hn,by simp [sold,Request.result,hsku]⟩
      · exact ⟨n,hs,hn,by simp [sold,Request.result]⟩

/-- What is left of an item and what was sold of it are what the shop opened with. -/
theorem Shop.balance (hq : ∀ req ∈ reqs, 0 ≤ req.qty.toInt) (hs : s.stock sku = some n)
    (hn : 0 ≤ n.toInt) :
    ∃ m, (s.after reqs).stock sku = some m ∧ 0 ≤ m.toInt ∧
      m.toInt + sold sku (s.answers reqs) = n.toInt := by
  induction reqs generalizing s n with
  | nil => exact ⟨n,hs,hn,by simp [Shop.answers,sold]⟩
  | cons req reqs ih =>
    obtain ⟨k,hk,hpos,hsum⟩ := Shop.serve_balance (hq req List.mem_cons_self) hs hn
    obtain ⟨m,hm,hpos',hsum'⟩ := ih (fun r hr => hq r (List.mem_cons_of_mem req hr)) hk hpos
    refine ⟨m,hm,hpos',?_⟩
    rw [Shop.answers,sold_append]
    omega

theorem Shop.answers_of {res : CSeckillResult} (h : res ∈ s.answers reqs) :
    ∃ req ∈ reqs, req.requestId ≠ barrierId ∧ ∃ status, res = req.result status := by
  induction reqs generalizing s with
  | nil => cases h
  | cons req reqs ih =>
    rw [Shop.answers,List.mem_append] at h
    rcases h with h | h
    · unfold Shop.serve at h
      split at h
      · cases h
      · rename_i hnew
        refine ⟨req,List.mem_cons_self,fun hid => hnew (.inl hid),?_⟩
        dsimp only at h
        split at h
        · exact ⟨0,by simpa using h⟩
        · split at h
          · exact ⟨1,by simpa using h⟩
          · exact ⟨2,by simpa using h⟩
    · obtain ⟨r,hr,hres⟩ := ih h
      exact ⟨r,List.mem_cons_of_mem req hr,hres⟩

theorem Shop.sold_out (hq : ∀ req ∈ reqs, 0 ≤ req.qty.toInt) (hs : s.stock sku = some 0) :
    (s.after reqs).stock sku = some 0 := by
  obtain ⟨m,hm,hpos,hsum⟩ := Shop.balance hq hs (Int.le_refl 0)
  have hsold : 0 ≤ sold sku (s.answers reqs) := sold_nonneg fun res hres => by
    obtain ⟨req,hreq,-,status,rfl⟩ := Shop.answers_of hres
    exact hq req hreq
  have hzero : m.toInt = (0 : Int32).toInt := by
    have h0 : (0 : Int32).toInt = 0 := rfl
    omega
  rw [hm,Int32.toInt_inj.mp hzero]

theorem sold_eq_zero (h : ∀ res ∈ results, res.skuId ≠ sku) : sold sku results = 0 := by
  have hnone : (results.filter fun res => res.status = 1 ∧ res.skuId = sku) = [] :=
    List.filter_eq_nil_iff.mpr fun res hres => by simp [h res hres]
  rw [sold,hnone]
  rfl

theorem Shop.serve_seen {id : UInt64} (h : id ∈ (s.serve req).1.seen) :
    id ∈ s.seen ∨ id ∈ ordinaryIds [req] := by
  unfold Shop.serve at h
  split at h
  · exact .inl h
  · rename_i hnew
    have hid : req.requestId ≠ barrierId := fun hid => hnew (.inl hid)
    have hrem : id ∈ remember s.seen req.requestId := by
      dsimp only at h
      split at h
      · exact h
      · split at h <;> exact h
    unfold remember at hrem
    split at hrem
    · cases hrem
    · rcases List.mem_cons.mp hrem with rfl | hseen
      · exact .inr (by simp [ordinaryIds,hid])
      · exact .inl hseen

theorem Shop.serve_one (hid : req.requestId ≠ barrierId) (fresh : req.requestId ∉ s.seen)
    (hq : req.qty = 1) (hs : s.stock sku = some n) (hn : 0 ≤ n.toInt) :
    sold sku (s.serve req).2.toList = min n.toInt (asked sku [req]) := by
  by_cases hsku : req.skuId = sku
  · subst hsku
    have hask : asked req.skuId [req] = 1 := by simp [asked,hid]
    have hone : (1 : Int32).toInt = 1 := rfl
    rw [hask,Shop.serve,if_neg (by simp [hid,fresh])]
    simp only [hs,hq]
    split
    · rename_i hle
      have hle' := Int32.le_iff_toInt_le.mp hle
      rw [Option.toList_some,sold_single,if_pos ⟨rfl,rfl⟩]
      simp only [Request.result,hq]
      omega
    · rename_i hle
      have hlt : ¬ (1 : Int32).toInt ≤ n.toInt := fun h => hle (Int32.le_iff_toInt_le.mpr h)
      rw [Option.toList_some,sold_single,if_neg (by simp [Request.result])]
      omega
  · have hask : asked sku [req] = 0 := by simp [asked,hsku]
    rw [hask,sold_eq_zero]
    · simpa using hn
    · intro res hres
      have hmem : res ∈ s.answers [req] := by simpa [Shop.answers] using hres
      obtain ⟨r,hr,-,status,rfl⟩ := Shop.answers_of hmem
      obtain rfl := List.mem_singleton.mp hr
      exact hsku

/-- A shop that is asked for one piece at a time, under new ids, sells as long as it has any. -/
theorem Shop.sells (hq : ∀ req ∈ reqs, req.requestId ≠ barrierId → req.qty = 1)
    (hnodup : (ordinaryIds reqs).Nodup) (hnew : ∀ id ∈ ordinaryIds reqs, id ∉ s.seen)
    (hs : s.stock sku = some n) (hn : 0 ≤ n.toInt) :
    sold sku (s.answers reqs) = min n.toInt (asked sku reqs) := by
  induction reqs generalizing s n with
  | nil => simpa [Shop.answers,sold,asked] using hn
  | cons req reqs ih =>
    have hids : ordinaryIds (req :: reqs) = ordinaryIds [req] ++ ordinaryIds reqs := by
      rw [ordinaryIds,← List.singleton_append,List.filter_append,List.map_append]
      rfl
    have hask : asked sku (req :: reqs) = asked sku [req] + asked sku reqs := by
      rw [asked,← List.singleton_append,List.countP_append]
      rfl
    rw [hids] at hnodup hnew
    obtain ⟨-,hrest,hdisj⟩ := List.nodup_append.mp hnodup
    have hnew' : ∀ id ∈ ordinaryIds reqs, id ∉ (s.serve req).1.seen := fun id hid hseen =>
      (Shop.serve_seen hseen).elim (hnew id (List.mem_append_right _ hid))
        fun hreq => hdisj id hreq id hid rfl
    have hq' : ∀ r ∈ reqs, r.requestId ≠ barrierId → r.qty = 1 :=
      fun r hr => hq r (List.mem_cons_of_mem req hr)
    rw [Shop.answers,sold_append,hask]
    by_cases hid : req.requestId = barrierId
    · have hzero : asked sku [req] = 0 := by simp [asked,hid]
      rw [Shop.serve_barrier hid] at hnew' ⊢
      rw [hzero,ih hq' hrest hnew' hs hn]
      simp [sold]
    · have hqty := hq req List.mem_cons_self hid
      have hfresh : req.requestId ∉ s.seen := hnew _ (List.mem_append_left _ (by simp [ordinaryIds,hid]))
      have hone := Shop.serve_one hid hfresh hqty hs hn
      obtain ⟨m,hm,hpos,hsum⟩ := Shop.serve_balance (by rw [hqty]; decide) hs hn
      rw [ih hq' hrest hnew' hm hpos]
      omega

end Shop
end Flashsale.CoreEngine
