import Flashsale.Acknowledge
import Mathlib
set_option autoImplicit false

/-!
Sessions on one WAL file, each constructed on what the ones before it left: the
constructor opens the file for appending and reads nothing from it.
-/

namespace Flashsale.Engine
open Bytes
variable {κ : Type}

def soldQty (rs : List Payload) (sku : Int64) : Int :=
  ((rs.filter (·.1 = sku)).map (·.2.1.toInt)).sum

/-- A call of `Process`: what the workers share when it comes, and how the `write`
of its record ends, if there is one. -/
structure ProcessCall (κ : Type) where
  shared : Shared κ
  req : Request
  inp : WorkerInput
  pad : UInt32
  written : Option Nat

/-- A worker between two calls of `Process`, and its WAL file. -/
structure WorkerSession where
  worker : Worker
  file : List UInt8

def WorkerSession.start (file : List UInt8) : WorkerSession := ⟨startWorker,file⟩

def WorkerSession.call (s : WorkerSession) (c : ProcessCall κ) : WorkerSession :=
  let p := s.worker.processCall c.shared s.file c.req c.inp c.pad c.written
  ⟨p.worker,p.file⟩

def sessionsOn (file : List UInt8) : List (List (ProcessCall κ)) → List WorkerSession
  | [] => []
  | calls :: rest =>
      let s := calls.foldl WorkerSession.call (WorkerSession.start file)
      s :: sessionsOn s.file rest

/-- The next session starts with the stock of `s` and refuses the ids in its file. -/
def Restored (s : WorkerSession) : Prop :=
  (WorkerSession.start s.file).worker.inventory = s.worker.inventory ∧
    ∀ r ∈ recover s.file, ((WorkerSession.start s.file).worker.isDuplicate r.requestId).1 = true

/-- Every restart restores, and all sessions together sell no more than there was. -/
def Durable (ss : List WorkerSession) : Prop :=
  (∀ s ∈ ss.dropLast, Restored s) ∧
    ∀ sku stock, initialInventory sku = some stock →
      (ss.map fun s => soldQty s.worker.sold sku).sum ≤ stock.toInt

/-- A crash that loses nothing: the stock is that of the constructor, and no record
fits into the file. -/
def WorkerSession.Spent (s : WorkerSession) : Prop :=
  s.worker.inventory = initialInventory ∧ s.file.length < sizeofRecord

theorem restored_iff {s : WorkerSession} : Restored s ↔ s.Spent := by
  constructor
  · rintro ⟨hinv,hdup⟩
    refine ⟨hinv.symm,recover_nil_iff.mp ?_⟩
    cases hfile : recover s.file with
    | nil => rfl
    | cons r rs => cases hdup r (by simp [hfile])
  · rintro ⟨hinv,hshort⟩
    refine ⟨hinv.symm,?_⟩
    rw [recover_short hshort]
    exact fun r hr => by cases hr

section Stock
variable {w : Worker} {req : Request} {file : List UInt8}

/-- The stock a list of sales leaves; a quantity below zero may take it past the
greatest 32-bit value, and then it falls by 2^32. -/
def Left (w : Worker) : Prop :=
  ∀ sku s, initialInventory sku = some s → ∃ stock, w.inventory sku = some stock ∧
    soldQty w.sold sku + stock.toInt ≤ s.toInt ∧
      (0 ≤ stock.toInt ∨ soldQty w.sold sku + stock.toInt ≤ s.toInt - 2^32)

theorem initialInventory_nonneg {sku : Int64} {s : Int32} (h : initialInventory sku = some s) :
    0 ≤ s.toInt := by
  simp only [initialInventory] at h
  repeat' split at h
  all_goals cases h
  all_goals decide

theorem soldQty_concat (rs : List Payload) (r : Payload) (sku : Int64) :
    soldQty (rs ++ [r]) sku = soldQty rs sku + if r.1 = sku then r.2.1.toInt else 0 := by
  by_cases h : r.1 = sku <;> simp [soldQty,List.filter_append,h]

theorem toInt_sub_cases {a b : Int32} (h : b.toInt ≤ a.toInt) :
    (a - b).toInt = a.toInt - b.toInt ∧ 0 ≤ (a - b).toInt ∨
      (a - b).toInt = a.toInt - b.toInt - 2^32 := by
  have hlt := a.toInt_lt
  have hle := b.le_toInt
  rw [Int32.toInt_sub,Int.bmod_def]
  split <;> omega

theorem startWorker_left : Left startWorker := by
  intro sku s hs
  have := initialInventory_nonneg hs
  refine ⟨s,hs,?_,.inl this⟩
  simp [soldQty,startWorker,Worker.sold]

theorem Left.sell {w' : Worker} {stock : Int32} (h : Left w)
    (hstock : w.inventory req.skuId = some stock) (hle : req.qty ≤ stock)
    (hinv : w'.inventory = takeFrom w.inventory req.payload)
    (hsold : w'.sold = w.sold ++ [req.payload]) : Left w' := by
  intro sku s hs
  obtain ⟨stock',hstock',hsum,hpos⟩ := h sku s hs
  rw [hinv,hsold,soldQty_concat]
  by_cases hsku : req.skuId = sku
  · subst hsku
    obtain rfl : stock' = stock := Option.some.inj (hstock'.symm.trans hstock)
    have hsub := toInt_sub_cases (Int32.le_iff_toInt_le.mp hle)
    refine ⟨stock' - req.qty,by simp [takeFrom,Request.payload,hstock],?_⟩
    simp only [Request.payload,if_true]
    omega
  · refine ⟨stock',by simpa [takeFrom,Request.payload,Ne.symm hsku] using hstock',?_⟩
    simpa [Request.payload,hsku] using ⟨hsum,hpos⟩

theorem Worker.processCall_stock (w : Worker) (sh : Shared κ) (file : List UInt8) (req : Request)
    (inp : WorkerInput) (pad : UInt32) (written : Option Nat) :
    (w.processCall sh file req inp pad written).worker.inventory = w.inventory ∧
        (w.processCall sh file req inp pad written).worker.sold = w.sold ∨
      (∃ stock, w.inventory req.skuId = some stock ∧ req.qty ≤ stock) ∧
        (w.processCall sh file req inp pad written).worker.inventory =
          takeFrom w.inventory req.payload ∧
        (w.processCall sh file req inp pad written).worker.sold = w.sold ++ [req.payload] := by
  have hstep : ProcessStep w sh req [] 0 inp.uninit (w.process sh req [] 0 inp.uninit).1
      (w.process sh req [] 0 inp.uninit).2 := Worker.process_step rfl
  unfold Worker.processCall
  generalize w.process sh req [] 0 inp.uninit = r at hstep ⊢
  obtain ⟨sh',w'⟩ := r
  dsimp only at hstep ⊢
  cases hstep with
  | decided id limit fresh =>
    have hsold := w.decide_sold req [] 0
    have hinv : (w.decide req [] 0).inventory = _ := w.deduct_inventory req
    by_cases hs : (w.deduct req).1 = 1
    · rw [if_pos hs] at hsold hinv
      refine .inr ⟨(w.deduct_eq_one_iff req).mp hs,?_⟩
      simp only [Worker.decide,Worker.take,Request.decision,hs,if_true] at hsold hinv ⊢
      split <;> exact ⟨hinv,hsold⟩
    · rw [if_neg hs,List.append_nil] at hsold
      rw [if_neg hs] at hinv
      simp only [Worker.decide,Worker.take,Request.decision,hs,if_false] at hsold hinv ⊢
      exact .inl ⟨hinv,hsold⟩
  | _ => exact .inl ⟨rfl,rfl⟩

theorem Left.call {s : WorkerSession} (h : Left s.worker) (c : ProcessCall κ) :
    Left (s.call c).worker := by
  rcases s.worker.processCall_stock c.shared s.file c.req c.inp c.pad c.written with
    ⟨hinv,hsold⟩ | ⟨⟨stock,hstock,hle⟩,hinv,hsold⟩
  · unfold Left WorkerSession.call
    rw [hinv,hsold]
    exact h
  · exact h.sell hstock hle hinv hsold

theorem session_left (calls : List (ProcessCall κ)) (file : List UInt8) :
    Left (calls.foldl WorkerSession.call (WorkerSession.start file)).worker := by
  have hrun : ∀ s : WorkerSession, Left s.worker → Left (calls.foldl WorkerSession.call s).worker := by
    induction calls with
    | nil => exact fun s h => h
    | cons c calls ih => exact fun s h => ih (s.call c) (h.call c)
  exact hrun _ startWorker_left

/-- Over one session the sales of a SKU stay within its first stock, whatever quantities they have. -/
theorem Left.soldQty_le (h : Left w) {sku : Int64} {stock : Int32}
    (hs : initialInventory sku = some stock) : soldQty w.sold sku ≤ stock.toInt := by
  obtain ⟨left,-,hsum,hpos⟩ := h sku stock hs
  have := left.le_toInt
  omega

theorem Left.soldQty_nonpos (h : Left w) (hinv : w.inventory = initialInventory) {sku : Int64}
    {stock : Int32} (hs : initialInventory sku = some stock) : soldQty w.sold sku ≤ 0 := by
  obtain ⟨left,hleft,hsum,-⟩ := h sku stock hs
  rw [hinv,hs,Option.some.injEq] at hleft
  subst hleft
  omega

end Stock

theorem sessionsOn_soldQty {ss : List (List (ProcessCall κ))} {file : List UInt8}
    (h : ∀ s ∈ (sessionsOn file ss).dropLast, s.Spent) {sku : Int64} {stock : Int32}
    (hs : initialInventory sku = some stock) :
    ((sessionsOn file ss).map fun s => soldQty s.worker.sold sku).sum ≤ stock.toInt := by
  induction ss generalizing file with
  | nil => exact initialInventory_nonneg hs
  | cons calls rest ih =>
    have hleft := session_left calls file
    cases rest with
    | nil => simpa [sessionsOn] using hleft.soldQty_le hs
    | cons calls' rest =>
      have hfirst := hleft.soldQty_nonpos (h _ (by simp [sessionsOn])).1 hs
      have hrest := ih fun s hs => h s (List.mem_cons_of_mem _ hs)
      rw [sessionsOn,List.map_cons,List.sum_cons]
      exact (add_le_add hfirst hrest).trans (by omega)

/-- The restarts of a worker restore its state, and its sessions together keep to
the first stock, exactly if each session but the last ends with the stock it began
with and a file shorter than a record. -/
theorem restart_durable_iff (ss : List (List (ProcessCall κ))) :
    Durable (sessionsOn [] ss) ↔ ∀ s ∈ (sessionsOn [] ss).dropLast, s.Spent := by
  constructor
  · exact fun hd s hs => restored_iff.mp (hd.1 s hs)
  · exact fun h => ⟨fun s hs => restored_iff.mpr (h s hs),fun sku stock hs => sessionsOn_soldQty h hs⟩

def buyOutCall (written : Option Nat) : ProcessCall Nat where
  shared := (initEngine 0 0 0 0 : State Nat).shared
  req := buyOut
  inp := default
  pad := 0
  written := written

def boughtSession (written : Option Nat) : WorkerSession :=
  (WorkerSession.start []).call (buyOutCall written)

def reboughtSession (written : Option Nat) : WorkerSession :=
  (WorkerSession.start (boughtSession written).file).call (buyOutCall (some sizeofRecord))

/-- The second session sells the five items again, whether the record of the first
sale is in the file or its write failed. -/
theorem restart_resells :
    (∀ written, sessionsOn [] [[buyOutCall written],[buyOutCall (some sizeofRecord)]] =
      [boughtSession written,reboughtSession written]) ∧
    (boughtSession (some 40)).worker.inventory 888 = some 0 ∧
    (WorkerSession.start (boughtSession (some 40)).file).worker.inventory 888 = some 5 ∧
    (recover (boughtSession (some 40)).file).map WalRecord.payload = [(888,5,5,5)] ∧
    ((WorkerSession.start (boughtSession (some 40)).file).worker.isDuplicate 5).1 = false ∧
    ¬ Durable [boughtSession (some 40),reboughtSession (some 40)] ∧
    recover (boughtSession none).file = [] ∧
    ¬ Durable [boughtSession none,reboughtSession none] := by
  have hresold : ∀ s s' : WorkerSession, soldQty s.worker.sold 888 + soldQty s'.worker.sold 888 = 10 →
      ¬ Durable [s,s'] := by
    intro s s' hsold hd
    have hle := hd.2 888 5 rfl
    simp only [List.map_cons,List.map_nil,List.sum_cons,List.sum_nil,hsold,add_zero] at hle
    exact absurd hle (by decide)
  have hfile : (boughtSession (some 40)).file = encodeRecord (buyOut.record 0) 0 ++ [] := by
    decide +kernel
  refine ⟨fun _ => rfl,by decide +kernel,by decide +kernel,?_,by decide +kernel,
    hresold _ _ (by decide +kernel),?_,hresold _ _ (by decide +kernel)⟩
  · rw [hfile,recover_whole,recover_short (by decide)]
    rfl
  · rw [recover_short (by decide +kernel)]

end Flashsale.Engine
