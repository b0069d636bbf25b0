import Flashsale.TornWrites
import Mathlib
set_option autoImplicit false

namespace Flashsale.Engine
open Bytes
variable {κ : Type}

def Request.record (req : Request) (now : UInt64) : WalRecord where
  timestampNs := now
  skuId := req.skuId
  qty := req.qty
  requestId := req.requestId
  guestId := req.guestId

/-- What a call of `Process` leaves; `append` is what `Append` returned, where it
was called, and `result` what is published. -/
structure Processed (κ : Type) where
  shared : Shared κ
  worker : Worker
  file : List UInt8
  append : Option Bool
  result : Option CSeckillResult

def Worker.processCall (w : Worker) (sh : Shared κ) (file : List UInt8) (req : Request)
    (inp : WorkerInput) (pad : UInt32) (written : Option Nat) : Processed κ :=
  let (sh,w) := w.process sh req [] 0 inp.uninit
  match w.pc with
  | .flag req res _ _ =>
      let sh := sh.storeFlag w req.skuId
      if res.status = 1 then
        let (ok,file) := (Append.mk (req.record inp.systemNow) pad written).run file
        { shared := sh
          worker := if ok then w.writeToWal req inp.systemNow else w
          file := file
          append := some ok
          result := some res }
      else { shared := sh, worker := w, file := file, append := none, result := some res }
  | .notify res _ _ =>
      { shared := sh, worker := w, file := file, append := none, result := some res }
  | _ => { shared := sh, worker := w, file := file, append := none, result := none }

/-- A sale is published only with its record in the journal, and where `Append`
fails there is no sale and nothing of it is left. -/
structure Acknowledged (w : Worker) (sh : Shared κ) (file : List UInt8) (req : Request)
    (now : UInt64) (pad : UInt32) (p : Processed κ) : Prop where
  journaled : ∀ res ∈ p.result, res.status = 1 → p.file = file ++ encodeRecord (req.record now) pad
  undone : p.append = some false → (∀ res ∈ p.result, res.status ≠ 1) ∧
    p.worker.inventory = w.inventory ∧ p.shared.soldTotal = sh.soldTotal ∧
    p.shared.soldOut = sh.soldOut

def Worker.Sells (w : Worker) (req : Request) : Prop :=
  req.requestId ≠ 0 ∧ req.requestId ≤ benchmarkLimit ∧ req.requestId ∉ w.seenRequests ∧
    ∃ stock ∈ w.inventory req.skuId, req.qty ≤ stock

theorem file_eq_iff (a : Append) (file : List UInt8) :
    (a.run file).2 = file ++ encodeRecord a.record a.pad ↔ stored a.written = sizeofRecord := by
  rw [run_file]
  constructor
  · intro h
    rw [← bytes_length,List.append_cancel_left h,encodeRecord_length]
  · intro h
    rw [bytes_whole h]

theorem file_ne (file : List UInt8) (r : WalRecord) (pad : UInt32) :
    file ≠ file ++ encodeRecord r pad := by
  intro h
  have hlen := congrArg List.length h
  rw [List.length_append,encodeRecord_length] at hlen
  simp [sizeofRecord] at hlen

section Cases
variable {w : Worker} {sh : Shared κ} {file : List UInt8} {req : Request} {now : UInt64}
  {pad : UInt32} {p : Processed κ}

theorem Acknowledged.of_unsold (h : ∀ res ∈ p.result, res.status ≠ 1) (ha : p.append = none) :
    Acknowledged w sh file req now pad p :=
  ⟨fun res hres hs => absurd hs (h res hres),fun hf => by rw [ha] at hf; cases hf⟩

theorem not_benchmark_of_le (h : req.requestId ≤ benchmarkLimit) : req.requestId ≠ barrierId := by
  intro he
  rw [he] at h
  exact absurd h (by decide)

end Cases

/-- The sales that `Process` acknowledges are in the journal exactly if it is asked
for no benchmark and the write of a sale is whole. -/
theorem acknowledged_iff (w : Worker) (sh : Shared κ) (file : List UInt8) (req : Request)
    (inp : WorkerInput) (pad : UInt32) (written : Option Nat) :
    Acknowledged w sh file req inp.systemNow pad
        (w.processCall sh file req inp pad written) ↔
      (req.requestId ≤ benchmarkLimit ∨ req.requestId = barrierId) ∧
        (w.Sells req → stored written = sizeofRecord) := by
  have hstep : ProcessStep w sh req [] 0 inp.uninit (w.process sh req [] 0 inp.uninit).1
      (w.process sh req [] 0 inp.uninit).2 := Worker.process_step rfl
  unfold Worker.processCall
  generalize w.process sh req [] 0 inp.uninit = r at hstep ⊢
  obtain ⟨sh',w'⟩ := r
  dsimp only at hstep ⊢
  cases hstep with
  | warmUp id =>
    have hright : w.Sells req → stored written = sizeofRecord := fun h => absurd id h.1
    exact iff_of_true (.of_unsold (by simp [Worker.take]) rfl) ⟨.inl (by rw [id]; decide),hright⟩
  | barrier id =>
    have hright : w.Sells req → stored written = sizeofRecord := fun h =>
      absurd id (not_benchmark_of_le h.2.1)
    exact iff_of_true (.of_unsold (by simp [Worker.take]) rfl) ⟨.inr id,hright⟩
  | benchmark id limit =>
    have hstatus : (req.benchmarkResult inp.uninit).status = 1 := by
      unfold Request.benchmarkResult
      split <;> rfl
    refine iff_of_false (fun h => ?_) (fun h => ?_)
    · exact file_ne file _ pad (h.journaled _ rfl hstatus)
    · exact h.1.elim (UInt64.not_le.mpr limit) id
  | duplicate id limit seen =>
    have hright : w.Sells req → stored written = sizeofRecord := fun h => absurd seen h.2.2.1
    exact iff_of_true (.of_unsold (by simp [Worker.take]) rfl) ⟨.inl limit,hright⟩
  | decided id limit fresh =>
    by_cases hs : (w.deduct req).1 = 1
    · have hsells : w.Sells req := ⟨id,limit,fresh,(w.deduct_eq_one_iff req).mp hs⟩
      simp only [Worker.decide,Worker.take,Request.decision,hs,if_true]
      constructor
      · intro h
        exact ⟨.inl limit,fun _ => (file_eq_iff _ file).mp (h.journaled _ rfl rfl)⟩
      · rintro ⟨-,hfull⟩
        have hok := (run_ok ⟨req.record inp.systemNow,pad,written⟩ file).trans
          (decide_eq_true (hfull hsells))
        refine ⟨fun res hres _ => (file_eq_iff _ file).mpr (hfull hsells),fun hf => ?_⟩
        rw [hok] at hf
        cases hf
    · have hright : w.Sells req → stored written = sizeofRecord := fun h =>
        absurd ((w.deduct_eq_one_iff req).mpr h.2.2.2) hs
      simp only [Worker.decide,Worker.take,Request.decision,hs,if_false]
      exact iff_of_true (.of_unsold (by simpa using hs) rfl) ⟨.inl limit,hright⟩

def buyOut : Request := { saleRequest 5 with skuId := 888, qty := 5 }

/-- `Process` of `buyOut` in a new engine, on a disk that has room for `n` bytes. -/
def fullDisk (n : Nat) : Processed Nat :=
  startWorker.processCall (initEngine 0 0 0 0 : State Nat).shared [] buyOut default 0 (some n)

/-- A short write fails, and the sale is published with the stock at zero and the flag set. -/
theorem unjournaled_sale_acknowledged :
    (fullDisk 16).append = some false ∧ (fullDisk 16).file.length = 16 ∧
    (fullDisk 16).result.map (·.status) = some 1 ∧ (fullDisk 16).worker.inventory 888 = some 0 ∧
    (fullDisk 16).shared.soldTotal = 5 ∧ (fullDisk 16).shared.soldOut 888 = some true ∧
    ¬ Acknowledged startWorker (initEngine 0 0 0 0 : State Nat).shared [] buyOut
      (default : WorkerInput).systemNow 0 (fullDisk 16) := by
  have happend : (fullDisk 16).append = some false := by decide +kernel
  have hinv : (fullDisk 16).worker.inventory 888 = some 0 := by decide +kernel
  refine ⟨happend,by decide +kernel,by decide +kernel,hinv,by decide +kernel,by decide +kernel,?_⟩
  intro h
  have hkept := congrFun (h.undone happend).2.1 888
  rw [hinv] at hkept
  exact absurd hkept (by decide)

end Flashsale.Engine
