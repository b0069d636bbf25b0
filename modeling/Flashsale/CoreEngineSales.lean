import Flashsale.CoreEngineClients
import Flashsale.CoreEngineShop
import Mathlib
set_option autoImplicit false

namespace Flashsale.CoreEngine
open Transition
open Engine (WalRecord Append barrierId remember)
variable {κ : Type}

abbrev ResultQueue (κ : Type) := MpmcQueue.State Nat CSeckillResult (ResultCaller κ)

def ResultCaller.isWorker (i : WorkerId) : ResultCaller κ → Bool
  | .worker j _ => j = i
  | .poller _ => false

def posted (q : ResultQueue κ) (i : WorkerId) : List CSeckillResult :=
  (q.tickets.filter (·.1.isWorker i)).map (·.2)

def Worker.inHand (w : Worker) (q : ResultQueue κ) (i : WorkerId) : Option CSeckillResult :=
  match w.pc with
  | .flag _ res _ _ | .notify res _ _ => some res
  | .publish res _ _ => if (q.pc (.worker i w.tries)).enqueued.isSome then none else some res
  | _ => none

def Loop.holding : Loop → Bool
  | .flag _ _ _ _ | .notify _ _ _ | .publish _ _ _ => true
  | .batch | .dequeue _ | .testRunning | .setBusy _ | .process _ _ | .addCount _ | .exited => false

abbrev Sale := Int64 × Int32 × UInt64 × UInt64

def CSeckillResult.sale (res : CSeckillResult) : Sale :=
  (res.skuId,res.qty,res.guestId,res.requestId)

def recorded (record : WalRecord) : Sale :=
  (record.skuId,record.qty,record.guestId,record.requestId)

/-- The sale of a call of `Append`, however its `write` ended. -/
def journalled (a : Append) : Sale := recorded a.record

/-- Every `write` to the journal stored the whole record. -/
def Worker.WroteWhole (w : Worker) : Prop := ∀ a ∈ w.wal, Engine.stored a.written = Engine.sizeofRecord

instance (w : Worker) : Decidable w.WroteWhole :=
  inferInstanceAs (Decidable (∀ a ∈ w.wal, Engine.stored a.written = Engine.sizeofRecord))

theorem Worker.WroteWhole.recover {w : Worker} (h : w.WroteWhole) :
    (Engine.recover (w.file [])).map recorded = w.wal.map journalled := by
  have htail : Engine.TornTail (w.wal.map (·.written)) := by
    refine ⟨w.wal.map (·.written),[],by simp,fun n hn => ?_,by decide⟩
    obtain ⟨a,ha,rfl⟩ := List.mem_map.mp hn
    exact .inr (h a ha)
  have hall : Engine.appended w.wal = w.wal.map (·.record) := by
    rw [Engine.appended,List.filter_eq_self.mpr fun a ha => by simpa [Engine.run_ok] using h a ha]
  rw [Worker.file,Engine.session_eq,List.nil_append,Engine.recover_tornTail htail,hall,List.map_map]
  rfl

def successes (results : List CSeckillResult) : List CSeckillResult := results.filter (·.status = 1)

/-- The sale whose journal entry is still to be written. -/
def Worker.unjournalled (w : Worker) : List Sale :=
  match w.pc with
  | .flag _ res _ _ => (successes [res]).map (·.sale)
  | _ => []

/-- What `sold_total_` is raised by. -/
def total (results : List CSeckillResult) : UInt64 :=
  ((successes results).map (·.qty.toInt64.toUInt64)).sum

def Worker.books (w : Worker) :
    (Int64 → Option Int32) × List UInt64 × List Request × List Append × Loop × Nat :=
  (w.inventory,w.seenRequests,w.processed,w.wal,w.pc,w.tries)

/-- Worker `i` is the shop of the requests it has processed. -/
structure Serving (w : Worker) (q : ResultQueue κ) (i : WorkerId) : Prop where
  shop : (⟨w.inventory,w.seenRequests⟩ : Shop) = Shop.opened.after w.processed
  settled : w.inHand q i = none → posted q i = Shop.opened.answers w.processed
  pending : ∀ res, w.inHand q i = some res → ∃ reqs req, w.processed = reqs ++ [req] ∧
    posted q i = Shop.opened.answers reqs ∧ ((Shop.opened.after reqs).serve req).2 = some res
  flagged : ∀ req res items count, w.pc = .flag req res items count →
    req ∈ w.processed ∧ req.requestId ≠ barrierId ∧ ∃ status, res = req.result status
  present : ∀ res items count, w.pc = .publish res items count →
    (q.pc (.worker i w.tries)).item = some res
  journal : w.wal.map journalled ++ w.unjournalled =
    (successes (Shop.opened.answers w.processed)).map (·.sale)

section Serving
variable {w w' : Worker} {q q' : ResultQueue κ} {sh sh' : Shared κ} {i : WorkerId}

theorem Serving.answers_eq (h : Serving w q i) :
    posted q i ++ (w.inHand q i).toList = Shop.opened.answers w.processed := by
  cases hh : w.inHand q i with
  | none => simpa using h.settled hh
  | some res =>
    obtain ⟨reqs,req,hproc,hposted,hserve⟩ := h.pending res hh
    rw [hproc,Shop.answers_concat,hposted,hserve]

theorem Serving.congr (h : Serving w q i) (hbooks : w'.books = w.books)
    (hq : ∀ k, q'.pc (.worker i k) = q.pc (.worker i k)) (hposted : posted q' i = posted q i) :
    Serving w' q' i := by
  simp only [Worker.books,Prod.mk.injEq] at hbooks
  obtain ⟨hinv,hseen,hproc,hwal,hpc,htries⟩ := hbooks
  have hhand : w'.inHand q' i = w.inHand q i := by
    simp only [Worker.inHand,hpc,htries,hq]
  exact {
    shop := by rw [hinv,hseen,hproc]; exact h.shop
    settled := by rw [hhand,hposted,hproc]; exact h.settled
    pending := by rw [hhand,hposted,hproc]; exact h.pending
    flagged := by rw [hpc,hproc]; exact h.flagged
    present := by rw [hpc,htries,hq]; exact h.present
    journal := by
      simp only [Worker.unjournalled,hwal,hpc,hproc]
      exact h.journal }

theorem Serving.goto (h : Serving w q i)
    (hbooks : w'.inventory = w.inventory ∧ w'.seenRequests = w.seenRequests ∧
      w'.processed = w.processed ∧ w'.wal = w.wal)
    (hhand : w.inHand q i = none) (hsale : w.unjournalled = []) (hpc : w'.pc.holding = false) :
    Serving w' q i := by
  obtain ⟨hinv,hseen,hproc,hwal⟩ := hbooks
  have hhand' : w'.inHand q i = none ∧ w'.unjournalled = [] := by
    unfold Worker.inHand Worker.unjournalled
    cases hp : w'.pc <;> simp_all [Loop.holding]
  exact {
    shop := by rw [hinv,hseen,hproc]; exact h.shop
    settled := fun _ => by rw [hproc]; exact h.settled hhand
    pending := fun res hres => by rw [hhand'.1] at hres; cases hres
    flagged := fun req res items count hp => by rw [hp] at hpc; cases hpc
    present := fun res items count hp => by rw [hp] at hpc; cases hpc
    journal := by
      have hj := h.journal
      rw [hsale] at hj
      rw [hhand'.2,hwal,hproc]
      exact hj }

theorem Serving.hold (h : Serving w q i) (res : CSeckillResult)
    (hbooks : w'.inventory = w.inventory ∧ w'.seenRequests = w.seenRequests ∧
      w'.processed = w.processed)
    (hhand : w.inHand q i = some res) (hhand' : w'.inHand q' i = some res)
    (hposted : posted q' i = posted q i)
    (hpc : ∀ req res items count, w'.pc ≠ .flag req res items count)
    (hpresent : ∀ res items count, w'.pc = .publish res items count →
      (q'.pc (.worker i w'.tries)).item = some res)
    (hjournal : w'.wal.map journalled = w.wal.map journalled ++ w.unjournalled) : Serving w' q' i := by
  obtain ⟨hinv,hseen,hproc⟩ := hbooks
  have hsale : w'.unjournalled = [] := by
    unfold Worker.unjournalled
    split
    · exact absurd ‹_› (hpc _ _ _ _)
    · rfl
  exact {
    shop := by rw [hinv,hseen,hproc]; exact h.shop
    settled := fun hn => by rw [hhand'] at hn; cases hn
    pending := fun res' hres => by
      rw [hproc,hposted]
      exact h.pending res' (hhand.trans (hhand'.symm.trans hres))
    flagged := fun req res items count hp => absurd hp (hpc req res items count)
    present := hpresent
    journal := by rw [hsale,hjournal,hproc,List.append_nil]; exact h.journal }

theorem Worker.serve_eq {s : Shop} {req : Request}
    (hshop : (⟨w.inventory,w.seenRequests⟩ : Shop) = s) (hid : req.requestId ≠ barrierId)
    (fresh : req.requestId ∉ w.seenRequests) :
    s.serve req = (⟨(w.deduct req).2.inventory,remember w.seenRequests req.requestId⟩,
      some (req.result (w.deduct req).1)) := by
  subst hshop
  rw [Shop.serve,if_neg (by simp [hid,fresh])]
  unfold Worker.deduct
  cases hstock : w.inventory req.skuId with
  | none => simp [hstock]
  | some n => by_cases hle : req.qty ≤ n <;> simp [hstock,hle]

theorem successes_append (results results' : List CSeckillResult) :
    successes (results ++ results') = successes results ++ successes results' := List.filter_append _ _

theorem total_append (results results' : List CSeckillResult) :
    total (results ++ results') = total results + total results' := by
  simp [total,successes_append]

theorem total_single (res : CSeckillResult) :
    total [res] = if res.status = 1 then res.qty.toInt64.toUInt64 else 0 := by
  by_cases h : res.status = 1 <;> simp [total,successes,h]

theorem ProcessStep.serving {req : Request} {items : List Request} {count : Nat}
    (hs : ProcessStep w sh req items count sh' w') (h : Serving w sh.resultQueue i)
    (hpc : w.pc = .process (req :: items) count) :
    Serving w' sh'.resultQueue i ∧
      sh'.soldTotal + total (Shop.opened.answers w.processed) =
        sh.soldTotal + total (Shop.opened.answers w'.processed) := by
  have hsettled := h.settled (by simp [Worker.inHand,hpc])
  have hjournal := h.journal
  rw [Worker.unjournalled,hpc] at hjournal
  have hpass : ∀ {sh'' : Shared κ}, sh''.resultQueue = sh.resultQueue →
      sh''.soldTotal = sh.soldTotal →
      (Shop.opened.after w.processed).serve req = (Shop.opened.after w.processed,none) →
      Serving (w.take req (.process items count)) sh''.resultQueue i ∧
        sh''.soldTotal + total (Shop.opened.answers w.processed) =
          sh.soldTotal + total (Shop.opened.answers (w.take req (.process items count)).processed) := by
    intro sh'' hq hsold hserve
    have hans : Shop.opened.answers (w.processed ++ [req]) = Shop.opened.answers w.processed := by
      rw [Shop.answers_concat,hserve]
      simp
    refine ⟨?_,by rw [hsold,Worker.take,hans]⟩
    rw [hq]
    exact {
      shop := by
        rw [Worker.take,Shop.after_concat,hserve]
        exact h.shop
      settled := fun _ => by
        rw [Worker.take,hans]
        exact hsettled
      pending := fun res hres => by simp [Worker.inHand,Worker.take] at hres
      flagged := fun _ _ _ _ hp => by simp [Worker.take] at hp
      present := fun _ _ _ hp => by simp [Worker.take] at hp
      journal := by
        simp only [Worker.unjournalled,Worker.take,hans]
        exact hjournal }
  cases hs with
  | barrier id => exact hpass rfl rfl (Shop.serve_barrier id)
  | duplicate id seen =>
    refine hpass rfl rfl ?_
    rw [← h.shop,Shop.serve,if_pos (.inr seen)]
  | decided id fresh =>
    have hserve := Worker.serve_eq h.shop id fresh
    have hans : Shop.opened.answers (w.processed ++ [req]) =
        Shop.opened.answers w.processed ++ [req.result (w.deduct req).1] := by
      rw [Shop.answers_concat,hserve]
      rfl
    refine ⟨{
      shop := ?_
      settled := fun hn => by simp [Worker.inHand,Worker.decide,Worker.take] at hn
      pending := fun res hres => ⟨w.processed,req,rfl,hsettled,?_⟩
      flagged := ?_
      present := fun _ _ _ hp => by simp [Worker.decide,Worker.take] at hp
      journal := ?_ },?_⟩
    · simp only [Worker.decide,Worker.take,Shop.after_concat,hserve]
    · rw [hserve]
      simpa [Worker.inHand,Worker.decide,Worker.take] using hres
    · intro req' res items' count' hp
      obtain ⟨rfl,rfl,-,-⟩ : req = req' ∧ req.result (w.deduct req).1 = res ∧ items = items' ∧
          count = count' := by simpa [Worker.decide,Worker.take] using hp
      exact ⟨by simp [Worker.decide,Worker.take],id,_,rfl⟩
    · simp only [Worker.unjournalled,Worker.decide,Worker.take,hans,successes_append,List.map_append]
      rw [List.append_nil] at hjournal
      rw [hjournal]
    · simp only [Worker.decide,Worker.take,hans,total_append,total_single,Request.result]
      split <;> ac_rfl

variable [DecidableEq κ]

theorem posted_step {c : ResultCaller κ} {b : Bool} (hn : q.step c b = some q') {j : WorkerId}
    (hj : c.isWorker j = false) : posted q' j = posted q j := by
  cases (MpmcQueue.State.step_effect hn).2.2 with
  | quiet tickets | took _ _ _ tickets => rw [posted,posted,tickets]
  | won data item tickets => simp [posted,tickets,hj]

/-- A step of `Loop` keeps to what the shop does. -/
theorem WorkStep.serving (hs : WorkStep w sh i sh' w') (h : Serving w sh.resultQueue i)
    (hq : MpmcQueue.Inv queueCap sh.resultQueue) (hq' : MpmcQueue.Inv queueCap sh'.resultQueue) :
    Serving w' sh'.resultQueue i ∧
      sh'.soldTotal + total (Shop.opened.answers w.processed) =
        sh.soldTotal + total (Shop.opened.answers w'.processed) := by
  cases hs with
  | process pc step => exact step.serving h pc
  | @ask q recheck pc running next =>
    refine ⟨h.goto ⟨rfl,rfl,rfl,rfl⟩ ?_ ?_ rfl,rfl⟩ <;> cases recheck <;>
      simp [Worker.inHand,Worker.unjournalled,pc]
  | empty recheck pc ret =>
    refine ⟨h.goto ⟨rfl,rfl,rfl,rfl⟩ (by simp [Worker.inHand,pc]) (by simp [Worker.unjournalled,pc])
      ?_,rfl⟩
    cases recheck <;> rfl
  | consume recheck pc next =>
    exact ⟨h.goto ⟨rfl,rfl,rfl,rfl⟩ (by simp [Worker.inHand,pc]) (by simp [Worker.unjournalled,pc])
      (by rw [pc]; rfl),rfl⟩
  | taken _ pc _ | again pc _ | busy pc | idle pc | addCount pc =>
    exact ⟨h.goto ⟨rfl,rfl,rfl,rfl⟩ (by simp [Worker.inHand,pc]) (by simp [Worker.unjournalled,pc])
      rfl,rfl⟩
  | @published res data items count t pc ret =>
    refine ⟨h.goto ⟨rfl,rfl,rfl,rfl⟩ ?_ (by simp [Worker.unjournalled,pc]) rfl,rfl⟩
    simp [Worker.inHand,pc,ret,MpmcQueue.Pc.enqueued]
  | @flag req res items count wr pc =>
    obtain ⟨-,-,status,hres⟩ := h.flagged req res items count pc
    obtain ⟨soldOut,hsold⟩ := sh.storeFlag_eq w req.skuId
    rw [hsold]
    have hbooks : (w.journal req res wr).inventory = w.inventory ∧
        (w.journal req res wr).seenRequests = w.seenRequests ∧
        (w.journal req res wr).processed = w.processed := by
      obtain ⟨wal,hwal⟩ := w.journal_eq req res wr
      simp [hwal]
    refine ⟨h.hold res hbooks (by simp [Worker.inHand,pc]) (by simp [Worker.inHand]) rfl (by simp)
      (by simp) ?_,by rw [hbooks.2.2]⟩
    by_cases hok : res.status = 1
    · have hsale : res.sale = (req.skuId,req.qty,req.guestId,req.requestId) := by rw [hres]; rfl
      simp [Worker.journal,Worker.writeToWal,Worker.unjournalled,pc,hok,successes,journalled,recorded,hsale]
    · simp [Worker.journal,Worker.unjournalled,pc,hok,successes]
  | @offer res items count q pc next =>
    obtain ⟨-,rfl⟩ := MpmcQueue.State.call_eq next
    refine ⟨h.hold res ⟨rfl,rfl,rfl⟩ (by simp [Worker.inHand,pc]) ?_ rfl (by simp) ?_ ?_,rfl⟩
    · simp [Worker.inHand,MpmcQueue.Pc.enqueued]
    · intro res' items' count' hp
      obtain ⟨rfl,-,-⟩ : res = res' ∧ items = items' ∧ count = count' := by simpa using hp
      simp [MpmcQueue.Pc.item]
    · simp [Worker.unjournalled,pc]
  | @refused res data items count pc ret =>
    refine ⟨h.hold res ⟨rfl,rfl,rfl⟩ ?_ (by simp [Worker.inHand]) rfl (by simp) (by simp) ?_,rfl⟩
    · simp [Worker.inHand,pc,ret,MpmcQueue.Pc.enqueued]
    · simp [Worker.unjournalled,pc]
  | @publish res items count q b pc next =>
    have hpresent : ∀ res' items' count', w.pc = .publish res' items' count' →
        (q.pc (.worker i w.tries)).item = some res' := by
      intro res' items' count' hp
      rw [(MpmcQueue.State.step_effect next).1]
      exact h.present res' items' count' hp
    have hhand : ∀ q' : ResultQueue κ, MpmcQueue.Inv queueCap q' →
        w.inHand q' i = if .worker i w.tries ∈ q'.tickets.map Prod.fst then none else some res := by
      intro q' hq'
      simp only [Worker.inHand,pc,hq'.mem_tickets_iff]
    refine ⟨?_,rfl⟩
    cases (MpmcQueue.State.step_effect next).2.2 with
    | quiet tickets | took _ _ _ tickets =>
      have hsame : w.inHand q i = w.inHand sh.resultQueue i := by
        rw [hhand q hq',hhand _ hq,tickets]
      have hposted : posted q i = posted sh.resultQueue i := by rw [posted,posted,tickets]
      exact { h with
        settled := by rw [hsame,hposted]; exact h.settled
        pending := by rw [hsame,hposted]; exact h.pending
        present := hpresent }
    | won data item tickets =>
      obtain rfl : res = data := Option.some.inj ((h.present res items count pc).symm.trans item)
      have hbefore : w.inHand sh.resultQueue i = some res := by
        rw [hhand _ hq,if_neg (hq'.fresh_of_won tickets)]
      have hafter : w.inHand q i = none := by
        rw [hhand q hq',if_pos (by simp [tickets])]
      obtain ⟨reqs,req,hproc,hposted,hserve⟩ := h.pending res hbefore
      exact { h with
        settled := fun _ => by
          rw [hproc,Shop.answers_concat,hserve,← hposted]
          simp [posted,tickets,ResultCaller.isWorker]
        pending := fun res' hres => by rw [hafter] at hres; cases hres
        present := hpresent }

def Accesses (c : ResultCaller κ) (a : MpmcQueue.Act CSeckillResult (ResultCaller κ)) : Prop :=
  match c with
  | .worker _ _ => (∃ res, a = .enqueue c res) ∨ ∃ b, a = .step c b
  | .poller _ => a = .dequeue c ∨ ∃ b, a = .step c b

omit [DecidableEq κ] in
theorem Accesses.cases {c : ResultCaller κ} {a : MpmcQueue.Act CSeckillResult (ResultCaller κ)}
    (h : Accesses c a) : (∃ res, a = .enqueue c res) ∨ a = .dequeue c ∨ ∃ b, a = .step c b := by
  cases c with
  | worker i k => exact h.imp_right .inr
  | poller c => exact .inr h

theorem Accesses.frame {c : ResultCaller κ} {a : MpmcQueue.Act CSeckillResult (ResultCaller κ)}
    (h : Accesses c a) (hn : q.next a = some q') :
    (∀ c', c' ≠ c → q'.pc c' = q.pc c') ∧ ∀ j, c.isWorker j = false → posted q' j = posted q j := by
  rcases h.cases with ⟨res,rfl⟩ | rfl | ⟨b,rfl⟩
  · obtain ⟨-,rfl⟩ := MpmcQueue.State.call_eq hn
    exact ⟨fun c' hc => MpmcQueue.State.goto_pc_of_ne hc,fun _ _ => rfl⟩
  · obtain ⟨-,rfl⟩ := MpmcQueue.State.call_eq hn
    exact ⟨fun c' hc => MpmcQueue.State.goto_pc_of_ne hc,fun _ _ => rfl⟩
  · exact ⟨fun c' hc => MpmcQueue.State.step_pc_of_ne hn hc,fun j hj => posted_step hn hj⟩

theorem WorkStep.accesses (hs : WorkStep w sh i sh' w') :
    sh'.resultQueue = sh.resultQueue ∨ ∃ k a, Accesses (.worker i k) a ∧
      sh.resultQueue.next a = some sh'.resultQueue := by
  cases hs with
  | process pc step => cases step <;> exact .inl rfl
  | @flag req res items count wr pc =>
    obtain ⟨soldOut,hsold⟩ := sh.storeFlag_eq w req.skuId
    exact .inl (by rw [hsold])
  | offer pc next => exact .inr ⟨_,_,.inl ⟨_,rfl⟩,next⟩
  | publish b pc next => exact .inr ⟨_,_,.inr ⟨b,rfl⟩,next⟩
  | _ => exact .inl rfl

end Serving

/-- What is sold and posted, and who polled it. -/
structure Sales (e : State κ) : Prop where
  serving : ∀ i, Serving (e.workers i) e.shared.resultQueue i
  results : MpmcQueue.Inv queueCap e.shared.resultQueue
  carries : MpmcQueue.Carries (fun c _ => ∃ i k, c = .worker i k) e.shared.resultQueue
  soldTotal : e.shared.soldTotal = ∑ i, total (Shop.opened.answers (e.workers i).processed)
  polled : ∀ c r, e.calls c = .retResult r →
    ∃ won, e.shared.resultQueue.pc (.poller c) = .deqReturn won ∧ r = won.map (·.2)

section Sales
variable {e e' : State κ}

theorem initEngine_sales (checkCorrectness : Bool) (barrierReached : UInt64) :
    Sales (initEngine checkCorrectness barrierReached : State κ) where
  serving i := {
    shop := rfl
    settled := fun _ => rfl
    pending := fun res hres => by simp [initEngine,startWorker,Worker.inHand] at hres
    flagged := fun _ _ _ _ hp => by simp [initEngine,startWorker] at hp
    present := fun _ _ _ hp => by simp [initEngine,startWorker] at hp
    journal := rfl }
  results := MpmcQueue.create_inv rfl
  carries := by rintro c data ⟨⟩
  soldTotal := by simp [initEngine,startWorker,Shop.answers,total,successes]
  polled c r h := by cases h

theorem Sales.of_books (h : Sales e) (hw : ∀ i, (e'.workers i).books = (e.workers i).books)
    (hq : e'.shared.resultQueue = e.shared.resultQueue)
    (hsold : e'.shared.soldTotal = e.shared.soldTotal)
    (hpolled : ∀ c r, e'.calls c = .retResult r →
      ∃ won, e.shared.resultQueue.pc (.poller c) = .deqReturn won ∧ r = won.map (·.2)) : Sales e' where
  serving i := by
    rw [hq]
    exact (h.serving i).congr (hw i) (fun _ => rfl) rfl
  results := by rw [hq]; exact h.results
  carries := by rw [hq]; exact h.carries
  soldTotal := by
    rw [hsold,h.soldTotal]
    refine Finset.sum_congr rfl fun i _ => ?_
    rw [show (e'.workers i).processed = (e.workers i).processed from congrArg (·.2.2.1) (hw i)]
  polled := by rw [hq]; exact hpolled

theorem Sales.of_shared (h : Sales e) (hw : e'.workers = e.workers)
    (hq : e'.shared.resultQueue = e.shared.resultQueue)
    (hsold : e'.shared.soldTotal = e.shared.soldTotal)
    (hpolled : ∀ c r, e'.calls c = .retResult r →
      ∃ won, e.shared.resultQueue.pc (.poller c) = .deqReturn won ∧ r = won.map (·.2)) : Sales e' :=
  h.of_books (fun i => by rw [hw]) hq hsold hpolled

variable [DecidableEq κ]

theorem Sales.poll {c : κ} {a : MpmcQueue.Act CSeckillResult (ResultCaller κ)} (h : Sales e)
    (ha : Accesses (.poller c) a) (hn : e.shared.resultQueue.next a = some e'.shared.resultQueue)
    (hw : e'.workers = e.workers) (hsold : e'.shared.soldTotal = e.shared.soldTotal)
    (hcalls : ∀ c', c' ≠ c → e'.calls c' = e.calls c') (hc : ∀ r, e'.calls c ≠ .retResult r) :
    Sales e' := by
  obtain ⟨hpcs,hposted⟩ := ha.frame hn
  refine ⟨fun i => ?_,h.results.next trivial hn,h.carries.next ?_ hn,?_,fun c' r hr => ?_⟩
  · rw [hw]
    exact (h.serving i).congr rfl (fun k => hpcs _ (by simp)) (hposted i rfl)
  · rintro c' data rfl
    rcases ha with ha | ⟨b,ha⟩ <;> cases ha
  · rw [hsold,hw]
    exact h.soldTotal
  · by_cases hcc : c' = c
    · subst hcc
      exact absurd hr (hc r)
    · rw [hpcs _ (by simp [hcc])]
      exact h.polled c' r (by rw [← hcalls c' hcc]; exact hr)

theorem Sales.work {i : WorkerId} {wr : WalWrite} {b : Bool} (h : Sales e)
    (hn : e.next (.work i wr b) = some e') : Sales e' := by
  obtain ⟨⟨sh,w⟩,hw,rfl⟩ := Option.map_eq_some_iff.mp hn
  have hs := Worker.step_cases hw
  have hframe : MpmcQueue.Inv queueCap sh.resultQueue ∧
      MpmcQueue.Carries (fun c _ => ∃ i k, c = .worker i k) sh.resultQueue ∧
      (∀ j k, j ≠ i → sh.resultQueue.pc (.worker j k) = e.shared.resultQueue.pc (.worker j k)) ∧
      (∀ c, sh.resultQueue.pc (.poller c) = e.shared.resultQueue.pc (.poller c)) ∧
      ∀ j, j ≠ i → posted sh.resultQueue j = posted e.shared.resultQueue j := by
    rcases hs.accesses with heq | ⟨k,a,ha,hnext⟩
    · rw [heq]
      exact ⟨h.results,h.carries,fun _ _ _ => rfl,fun _ => rfl,fun _ _ => rfl⟩
    · obtain ⟨hpcs,hposted⟩ := ha.frame hnext
      refine ⟨h.results.next trivial hnext,h.carries.next ?_ hnext,fun j k' hj => hpcs _ (by simp [hj]),
        fun c => hpcs _ (by simp),fun j hj => hposted j (by simp [ResultCaller.isWorker,Ne.symm hj])⟩
      rintro c data rfl
      rcases ha with ⟨res,ha⟩ | ⟨b',ha⟩ <;> cases ha
      exact ⟨i,k,rfl⟩
  obtain ⟨hinv,hcarries,hworkers,hpollers,hposted⟩ := hframe
  obtain ⟨hserve,hsold⟩ := hs.serving (h.serving i) h.results hinv
  refine ⟨fun j => ?_,hinv,hcarries,?_,fun c r hr => ?_⟩
  · by_cases hj : j = i
    · subst hj
      simpa using hserve
    · simpa [hj] using (h.serving j).congr rfl (fun k => hworkers j k hj) (hposted j hj)
  · have hsum := sum_balance (i := i)
      (f := fun j => total (Shop.opened.answers (Function.update e.workers i w j).processed))
      (g := fun j => total (Shop.opened.answers (e.workers j).processed))
      (m := total (Shop.opened.answers (e.workers i).processed))
      (n := total (Shop.opened.answers w.processed)) (fun j hj => by simp [hj]) (by simp [add_comm])
    rw [← h.soldTotal,← hsold] at hsum
    exact (add_right_cancel hsum).symm
  · rw [hpollers]
    exact h.polled c r hr

theorem Sales.polled_setCall {c : κ} {p : Call} (h : Sales e) (hp : ∀ r, p ≠ .retResult r) (c' : κ)
    (r : Option CSeckillResult) (hr : (e.setCall c p).calls c' = .retResult r) :
    ∃ won, e.shared.resultQueue.pc (.poller c') = .deqReturn won ∧ r = won.map (·.2) := by
  by_cases hc : c' = c
  · rw [hc,State.setCall_calls_self] at hr
    exact absurd hr (hp r)
  · rw [State.setCall_calls_of_ne hc] at hr
    exact h.polled c' r hr

theorem Sales.client {c : κ} {b : Bool} (h : Sales e) (hn : e.next (.client c b) = some e') :
    Sales e' := by
  cases State.client_cases hn with
  | poll b' q pc next =>
    exact h.poll (.inr ⟨b',rfl⟩) next rfl rfl (fun _ _ => rfl) (by simp [pc])
  | polled won pc ret =>
    refine h.of_shared rfl rfl rfl fun c' r hr => ?_
    by_cases hc : c' = c
    · subst hc
      rw [State.setCall_calls_self] at hr
      cases hr
      exact ⟨won,ret,rfl⟩
    · rw [State.setCall_calls_of_ne hc] at hr
      exact h.polled c' r hr
  | access k b' q pc next => exact h.of_shared rfl rfl rfl h.polled
  | requestTest creq pc => exact h.of_shared rfl rfl rfl (h.polled_setCall (by cases e.running <;> simp))
  | batchTest reqs pc => exact h.of_shared rfl rfl rfl (h.polled_setCall (by cases e.running <;> simp))
  | testFlag creq pc =>
    refine h.of_shared rfl rfl rfl (h.polled_setCall ?_)
    split <;> simp
  | _ => exact h.of_shared rfl rfl rfl (h.polled_setCall (by simp))

theorem State.next_books {a : Act κ} (hn : e.next a = some e') (ha : ∀ i wr b, a ≠ .work i wr b) :
    (∀ i, (e'.workers i).books = (e.workers i).books) ∧ e'.shared.soldOut = e.shared.soldOut ∧
      e'.shared.soldTotal = e.shared.soldTotal := by
  have hset : ∀ {i : WorkerId} {q : SpscQueue.State Request} (j : WorkerId),
      ((e.setQueue i q).workers j).books = (e.workers j).books := by
    intro i q j
    by_cases hj : j = i
    · subst hj
      simp [State.setQueue,Worker.books]
    · simp [State.setQueue,hj]
  cases a with
  | work i wr b => exact absurd rfl (ha i wr b)
  | start c f =>
    simp only [State.next,State.start] at hn
    split at hn
    · cases f with
      | pollResult =>
        obtain ⟨q,-,rfl⟩ := Option.map_eq_some_iff.mp hn
        exact ⟨fun _ => rfl,rfl,rfl⟩
      | _ => cases hn; exact ⟨fun _ => rfl,rfl,rfl⟩
    · cases hn
  | client c b => cases State.client_cases hn <;> exact ⟨fun _ => rfl,rfl,rfl⟩
  | dispatch b =>
    cases State.dispatch_cases hn with
    | ask | push => exact ⟨hset,rfl,rfl⟩
    | _ => exact ⟨fun _ => rfl,rfl,rfl⟩
  | stop =>
    cases State.stop_cases hn with
    | stopWorker i pc =>
      refine ⟨fun j => ?_,rfl,rfl⟩
      by_cases hj : j = i
      · subst hj
        simp [Worker.books]
      · simp [hj]
    | _ => exact ⟨fun _ => rfl,rfl,rfl⟩

theorem Sales.next {a : Act κ} (h : Sales e) (hn : e.next a = some e') : Sales e' := by
  cases a with
  | client c b => exact h.client hn
  | work i wr b => exact h.work hn
  | start c f =>
    have hn' : e.start c f = some e' := hn
    simp only [State.start] at hn'
    split at hn'
    · rename_i hidle
      cases f with
      | pollResult =>
        obtain ⟨q,hq,rfl⟩ := Option.map_eq_some_iff.mp hn'
        exact h.poll (.inl rfl) hq rfl rfl (fun c' hc => State.setCall_calls_of_ne hc)
          (by simp [State.setCall])
      | _ =>
        cases hn'
        exact h.of_shared rfl rfl rfl (h.polled_setCall (by simp))
    · cases hn'
  | dispatch b =>
    obtain ⟨hbooks,-,hsold⟩ := State.next_books hn (by simp)
    obtain ⟨hq,hcalls⟩ : e'.shared.resultQueue = e.shared.resultQueue ∧ e'.calls = e.calls := by
      cases State.dispatch_cases hn <;> exact ⟨rfl,rfl⟩
    exact h.of_books hbooks hq hsold (hcalls ▸ h.polled)
  | stop =>
    obtain ⟨hbooks,-,hsold⟩ := State.next_books hn (by simp)
    obtain ⟨hq,hcalls⟩ : e'.shared.resultQueue = e.shared.resultQueue ∧ e'.calls = e.calls := by
      cases State.stop_cases hn <;> exact ⟨rfl,rfl⟩
    exact h.of_books hbooks hq hsold (hcalls ▸ h.polled)

theorem reachable_sales (h : system.Reachable e) : Sales e := by
  refine h.invariant (I := Sales) ?_ ?_
  · rintro e ⟨c,b,rfl⟩
    exact initEngine_sales c b
  · exact fun _ _ _ hs hn => hs.next hn

/-- However the threads are interleaved, each worker is the shop that serves, one after
another, the requests it has processed: its stock, what it posts and has in hand, what it
passes to `Append`, its journal where every write is complete, and its part of `sold_total_`. -/
theorem worker_is_shop (h : system.Reachable e) :
    (∀ i, (⟨(e.workers i).inventory,(e.workers i).seenRequests⟩ : Shop) =
        Shop.opened.after (e.workers i).processed ∧
      posted e.shared.resultQueue i ++ ((e.workers i).inHand e.shared.resultQueue i).toList =
        Shop.opened.answers (e.workers i).processed ∧
      (e.workers i).wal.map journalled ++ (e.workers i).unjournalled =
        (successes (Shop.opened.answers (e.workers i).processed)).map (·.sale) ∧
      ((e.workers i).WroteWhole →
        (Engine.recover ((e.workers i).file [])).map recorded ++ (e.workers i).unjournalled =
          (successes (Shop.opened.answers (e.workers i).processed)).map (·.sale))) ∧
    e.shared.soldTotal = ∑ i, total (Shop.opened.answers (e.workers i).processed) :=
  have hs := reachable_sales h
  ⟨fun i => ⟨(hs.serving i).shop,(hs.serving i).answers_eq,(hs.serving i).journal,
    fun hw => by rw [hw.recover]; exact (hs.serving i).journal⟩,hs.soldTotal⟩

def polledActs : List (Act Bool) :=
  .start true (.enqueueBatch threeRequests) :: List.replicate 23 (.client true false) ++
    List.replicate 50 (.dispatch false) ++ List.replicate 22 (.work 3 wholeWrite false) ++
    .start false .pollResult :: List.replicate 6 (.client false false)

def polledState : State Bool :=
  (system.exec (initEngine true 0) polledActs).get (by decide +kernel)

theorem polledState_reachable : system.Reachable polledState :=
  .exec (initEngine_init true 0) (by decide +kernel)

theorem worker_is_shop_three :
    posted polledState.shared.resultQueue 3 = [⟨123,1,7,1,1⟩] ∧
    posted polledState.shared.resultQueue 3 ++
        ((polledState.workers 3).inHand polledState.shared.resultQueue 3).toList =
      Shop.opened.answers (polledState.workers 3).processed ∧
    (Engine.recover ((polledState.workers 3).file [])).map recorded ++
        (polledState.workers 3).unjournalled =
      (successes (Shop.opened.answers (polledState.workers 3).processed)).map (·.sale) :=
  have h := (worker_is_shop polledState_reachable).1 3
  ⟨by decide +kernel,h.2.1,h.2.2.2 (by decide +kernel)⟩

/-- A result that `PollResult` returns is the answer of a worker to a request it has
processed, and no other call has taken its ticket. -/
theorem polled_answer {c : κ} {res : CSeckillResult} (h : system.Reachable e)
    (hret : e.calls c = .retResult (some res)) :
    ∃ (t : Nat) (i : WorkerId) (k : Nat), e.shared.resultQueue.takers[t]? = some (.poller c) ∧
      e.shared.resultQueue.tickets[t]? = some (.worker i k,res) ∧
      res ∈ Shop.opened.answers (e.workers i).processed := by
  have hs := reachable_sales h
  obtain ⟨won,hpc,hwon⟩ := hs.polled c _ hret
  obtain ⟨⟨t,res'⟩,rfl,rfl⟩ := Option.map_eq_some_iff.mp hwon.symm
  have htaker : e.shared.resultQueue.takers[t]? = some (.poller c) :=
    hs.results.recorded_dequeue (by rw [hpc]; rfl)
  have hok := hs.results.pcs (.poller c)
  rw [hpc] at hok
  obtain ⟨-,c',hticket⟩ := hok
  replace hticket : e.shared.resultQueue.tickets[t]? = some (c',res') := hticket
  obtain ⟨i,k,rfl⟩ := hs.results.tickets_carry hs.carries hticket
  refine ⟨t,i,k,htaker,hticket,?_⟩
  rw [← (hs.serving i).answers_eq]
  refine List.mem_append_left _ (List.mem_map.mpr ⟨(.worker i k,res'),?_,rfl⟩)
  exact List.mem_filter.mpr ⟨List.mem_of_getElem? hticket,by simp [ResultCaller.isWorker]⟩

theorem polled_answer_three : ∃ (t : Nat) (i : WorkerId) (k : Nat),
    polledState.shared.resultQueue.takers[t]? = some (.poller false) ∧
    polledState.shared.resultQueue.tickets[t]? = some (.worker i k,⟨123,1,7,1,1⟩) ∧
    ⟨123,1,7,1,1⟩ ∈ Shop.opened.answers (polledState.workers i).processed :=
  polled_answer polledState_reachable (by decide +kernel)

end Sales
end Flashsale.CoreEngine
