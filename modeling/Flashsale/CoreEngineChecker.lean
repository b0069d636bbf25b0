import Flashsale.CoreEngineDrain
import Mathlib
set_option autoImplicit false

namespace Flashsale.CoreEngine
open Transition
open Engine (Statics Stats largest skipped repeated counted_iff largest_range' barrierId)

/-- What a check amounts to that nothing comes in between. -/
def check (st : Statics) (id : UInt64) : Statics :=
  if id = st.expectedSeq then { st with expectedSeq := st.expectedSeq + 1, lastSeqSeen := id }
  else if id < st.expectedSeq then { st with dupCount := st.dupCount + 1, lastSeqSeen := id }
  else { st with
    gapCount := st.gapCount + (id - st.expectedSeq)
    expectedSeq := id + 1
    lastSeqSeen := id }

def Checking.finish (c : Checking) (st : Statics) : Statics :=
  match c.pc with
  | .testEqual => check st c.id
  | .loadExpectedSeq => { st with expectedSeq := st.expectedSeq + 1, lastSeqSeen := c.id }
  | .storeExpectedSeq seq => { st with expectedSeq := seq, lastSeqSeen := c.id }
  | .testLess =>
      if c.id < st.expectedSeq then { st with dupCount := st.dupCount + 1, lastSeqSeen := c.id }
      else { st with
        gapCount := st.gapCount + (c.id - st.expectedSeq)
        expectedSeq := c.id + 1
        lastSeqSeen := c.id }
  | .loadDupCount => { st with dupCount := st.dupCount + 1, lastSeqSeen := c.id }
  | .storeDupCount dup => { st with dupCount := dup, lastSeqSeen := c.id }
  | .subtract => { st with
      gapCount := st.gapCount + (c.id - st.expectedSeq)
      expectedSeq := c.id + 1
      lastSeqSeen := c.id }
  | .loadGapCount missing => { st with
      gapCount := st.gapCount + missing
      expectedSeq := c.id + 1
      lastSeqSeen := c.id }
  | .storeGapCount gap => { st with gapCount := gap, expectedSeq := c.id + 1, lastSeqSeen := c.id }
  | .storeLastSeqSeen => { st with lastSeqSeen := c.id }

def finished (checking : Option Checking) (st : Statics) : Statics :=
  match checking with
  | some c => c.finish st
  | none => st

theorem Checking.finished_step (c : Checking) (st : Statics) :
    finished (c.step st).1 (c.step st).2 = c.finish st := by
  obtain ⟨id,pc⟩ := c
  cases pc with
  | testEqual =>
    by_cases h : id = st.expectedSeq <;> simp [Checking.step,goto,finished,finish,check,h]
  | testLess =>
    by_cases h : id < st.expectedSeq <;> simp [Checking.step,goto,finished,finish,h]
  | _ => rfl

theorem Checking.step_checkCorrectness (c : Checking) (st : Statics) :
    (c.step st).2.checkCorrectness = st.checkCorrectness := by
  unfold Checking.step
  split <;> rfl

/-- The counters where the largest id was `m`, `g` ids were skipped and `d` repeated. -/
structure Tally (m g d : Nat) (st : Statics) : Prop where
  expected : st.expectedSeq.toNat = m + 1
  gap : st.gapCount.toNat = g
  dup : st.dupCount.toNat = d

section Check
variable {m g d : Nat} {st : Statics} {id : UInt64} {ids : List UInt64}

theorem Tally.step (h : Tally m g d st) (hid : id ≠ barrierId) (hg : g ≤ m) (hd : d + 1 < 2^64) :
    Tally (max m id.toNat) (g + if m + 1 < id.toNat then id.toNat - m - 1 else 0)
      (d + if id.toNat ≤ m then 1 else 0) (check st id) := by
  have hlt : id.toNat < 2^64 - 1 := by
    have hne : id.toNat ≠ barrierId.toNat := fun he => hid (UInt64.toNat_inj.mp he)
    have hmax : barrierId.toNat = 2^64 - 1 := rfl
    have := id.toNat_lt
    omega
  have hone : (1 : UInt64).toNat = 1 := rfl
  have hexp := h.expected
  have hgap := h.gap
  have hdup := h.dup
  unfold check
  by_cases heq : id = st.expectedSeq
  · have hnat : id.toNat = m + 1 := by rw [heq,hexp]
    rw [if_pos heq]
    refine ⟨?_,?_,?_⟩
    · rw [UInt64.toNat_add,hone,Nat.mod_eq_of_lt (by omega)]
      omega
    · rw [if_neg (by omega)]
      exact hgap
    · rw [if_neg (by omega)]
      exact hdup
  · have hne : id.toNat ≠ m + 1 := fun he => heq (UInt64.toNat_inj.mp (he.trans hexp.symm))
    rw [if_neg heq]
    by_cases hless : id < st.expectedSeq
    · have hle := UInt64.lt_iff_toNat_lt.mp hless
      rw [if_pos hless]
      refine ⟨?_,?_,?_⟩
      · dsimp only
        omega
      · rw [if_neg (by omega)]
        exact hgap
      · rw [if_pos (by omega),UInt64.toNat_add,hone,hdup,Nat.mod_eq_of_lt hd]
    · have hge := UInt64.le_iff_toNat_le.mp (UInt64.not_lt.mp hless)
      have hsub := UInt64.toNat_sub_of_le id st.expectedSeq (UInt64.not_lt.mp hless)
      rw [if_neg hless]
      refine ⟨?_,?_,?_⟩
      · rw [UInt64.toNat_add,hone,Nat.mod_eq_of_lt (by omega)]
        omega
      · rw [if_pos (by omega),UInt64.toNat_add,hsub,Nat.mod_eq_of_lt (by omega)]
        omega
      · rw [if_neg (by omega)]
        exact hdup

theorem Tally.fold (h : Tally m g d st) (hids : ∀ id ∈ ids, id ≠ barrierId) (hg : g ≤ m)
    (hd : d + ids.length < 2^64) :
    Tally (largest m ids) (g + skipped m ids) (d + repeated m ids) (ids.foldl check st) := by
  induction ids generalizing m g d st with
  | nil => exact h
  | cons id ids ih =>
    rw [List.length_cons] at hd
    have hstep := h.step (hids id List.mem_cons_self) hg (by omega)
    have hrest := ih hstep (fun x hx => hids x (List.mem_cons_of_mem id hx)) (by split <;> omega)
      (by split <;> omega)
    simpa only [largest,skipped,repeated,List.foldl_cons,add_assoc] using hrest

theorem check_lastSeqSeen : (check st id).lastSeqSeen = id := by
  unfold check
  split
  · rfl
  · split <;> rfl

/-- The last id seen is the last one, not the largest. -/
theorem fold_lastSeqSeen : (ids.foldl check st).lastSeqSeen = ids.getLast?.getD st.lastSeqSeen := by
  induction ids generalizing st with
  | nil => rfl
  | cons id ids ih =>
    have hlast : (check st id).lastSeqSeen = id := check_lastSeqSeen
    rw [List.foldl_cons,ih,hlast]
    cases ids <;> rfl

def report (ids : List UInt64) : Stats where
  lastSeq := (ids.getLast?.getD 0).toNat
  gap := skipped 0 ids
  dup := repeated 0 ids

theorem last_range' {n : Nat} (h : ids.map UInt64.toNat = List.range' 1 n) :
    (ids.getLast?.getD 0).toNat = n := by
  have hlast : ids.getLast?.map UInt64.toNat = if n = 0 then none else some (1 + n - 1) := by
    rw [← List.getLast?_map,h,List.getLast?_range']
  cases hl : ids.getLast? with
  | none =>
    rw [hl] at hlast
    by_cases hn : n = 0
    · simp [hn]
    · simp [hn] at hlast
  | some id =>
    rw [hl] at hlast
    by_cases hn : n = 0
    · simp [hn] at hlast
    · simp only [Option.map_some,hn,if_false,Option.some.injEq] at hlast
      simp only [Option.getD_some]
      omega

/-- Nothing is reported missing or twice where the ids are 1 to `n` in order, only. -/
theorem report_eq_iff {n : Nat} : report ids = ⟨n,0,0⟩ ↔ ids.map UInt64.toNat = List.range' 1 n := by
  simp only [report,Stats.mk.injEq,counted_iff]
  constructor
  · rintro ⟨hlast,hids⟩
    rw [Nat.zero_add] at hids
    rw [last_range' hids] at hlast
    rw [hids,hlast]
  · intro hids
    have hlen : ids.length = n := by
      rw [← ids.length_map (f := UInt64.toNat),hids,List.length_range']
    exact ⟨last_range' hids,by rw [hlen]; exact hids⟩

end Check

section Runs
variable {κ : Type} [DecidableEq κ] {e e' s t : State κ}

def Call.enabling : Call → Bool
  | .storeCheck _ | .resetExpectedSeq | .resetGapCount | .resetDupCount | .resetLastSeqSeen => true
  | _ => false

def State.enabler (e : State κ) : Act κ → Option κ
  | .client c _ => if (e.calls c).enabling then some c else none
  | _ => none

def State.checkedIds (e : State κ) (n : Nat) : List UInt64 :=
  ((e.handled.drop n).filter (Ordinary ·)).map (·.requestId)

omit [DecidableEq κ] in
theorem checkedIds_append {n : Nat} {req : Request} (hn : n ≤ e.handled.length)
    (hh : e'.handled = e.handled ++ [req]) :
    e'.checkedIds n = e.checkedIds n ++ if Ordinary req then [req.requestId] else [] := by
  rw [State.checkedIds,State.checkedIds,hh,List.drop_append_of_le_length hn]
  by_cases ho : Ordinary req <;> simp [ho]

omit [DecidableEq κ] in
theorem State.enabling_eq_false {c : κ} {b : Bool} (h : e.enabler (.client c b) = none) :
    (e.calls c).enabling = false := by
  by_contra hc
  simp only [State.enabler,Bool.eq_true_of_not_eq_false hc,if_true,reduceCtorEq] at h

inductive CheckerStep (e e' : State κ) : Prop where
  | quiet (statics : e'.statics = e.statics) (checking : e'.checking = e.checking)
      (handled : ∃ reqs, e'.handled = e.handled ++ reqs ∧ ∀ req ∈ reqs, ¬Ordinary req)
  | begin (req : Request) (idle : e.checking = none) (ordinary : Ordinary req)
      (statics : e'.statics = e.statics) (handled : e'.handled = e.handled ++ [req])
      (checking : e'.checking =
        if e.statics.checkCorrectness then some ⟨req.requestId,.testEqual⟩ else none)
  | check (c : Checking) (busy : e.checking = some c)
      (checking : e'.checking = (c.step e.statics).1) (statics : e'.statics = (c.step e.statics).2)
      (handled : e'.handled = e.handled)

theorem State.next_checker {a : Act κ} (hn : e.next a = some e') (ha : e.enabler a = none) :
    CheckerStep e e' := by
  have hquiet : e'.statics = e.statics → e'.checking = e.checking → e'.handled = e.handled →
      CheckerStep e e' := fun hst hc hh => .quiet hst hc ⟨[],by simpa using hh,by simp⟩
  cases a with
  | start c f =>
    simp only [State.next,State.start] at hn
    split at hn
    · cases f with
      | pollResult =>
        obtain ⟨q,-,rfl⟩ := Option.map_eq_some_iff.mp hn
        exact hquiet rfl rfl rfl
      | _ => cases hn; exact hquiet rfl rfl rfl
    · cases hn
  | client c b =>
    have hoff := State.enabling_eq_false ha
    cases State.client_cases hn with
    | checkOff enabled pc _ | checkOn enabled pc _ | resetExpectedSeq pc | resetGapCount pc
    | resetDupCount pc | resetLastSeqSeen pc => rw [pc] at hoff; cases hoff
    | _ => exact hquiet rfl rfl rfl
  | work i wr b =>
    obtain ⟨⟨sh,w⟩,-,rfl⟩ := Option.map_eq_some_iff.mp hn
    exact hquiet rfl rfl rfl
  | stop => cases State.stop_cases hn <;> exact hquiet rfl rfl rfl
  | dispatch b =>
    cases State.dispatch_cases hn with
    | barrier k req items pc id =>
      exact .quiet rfl rfl ⟨[req],rfl,by simpa [Ordinary] using id⟩
    | handle k req items pc id idle => exact .begin req idle id rfl rfl rfl
    | check c busy => exact .check c busy rfl rfl rfl
    | _ => exact hquiet rfl rfl rfl

omit [DecidableEq κ] in
theorem CheckerStep.statics_eq (h : CheckerStep e e') (hidle : e.checking = none) :
    e'.statics = e.statics := by
  cases h with
  | quiet statics _ _ => exact statics
  | begin _ _ _ statics _ _ => exact statics
  | check c busy _ _ _ => simp [hidle] at busy

/-- The check is on, and has counted the ids from the `n`-th request handled on, when the
one on its way is over. -/
structure Counting (n : Nat) (st : Statics) (e : State κ) : Prop where
  enabled : e.statics.checkCorrectness = true
  handled : n ≤ e.handled.length
  counted : finished e.checking e.statics = (e.checkedIds n).foldl check st

omit [DecidableEq κ] in
theorem Counting.next {n : Nat} {st : Statics} (h : Counting n st e) (hs : CheckerStep e e') :
    Counting n st e' := by
  have hle := h.handled
  cases hs with
  | quiet statics checking handled =>
    obtain ⟨reqs,hh,hreqs⟩ := handled
    refine ⟨by rw [statics]; exact h.enabled,by rw [hh,List.length_append]; omega,?_⟩
    have hids : e'.checkedIds n = e.checkedIds n := by
      have hnone : reqs.filter (Ordinary ·) = [] := by
        simpa [List.filter_eq_nil_iff] using hreqs
      rw [State.checkedIds,State.checkedIds,hh,List.drop_append_of_le_length hle,List.filter_append,
        hnone,List.append_nil]
    rw [statics,checking,hids]
    exact h.counted
  | begin req idle ordinary statics handled checking =>
    refine ⟨by rw [statics]; exact h.enabled,by rw [handled,List.length_append]; omega,?_⟩
    have hcounted := h.counted
    rw [idle] at hcounted
    rw [checking,statics,if_pos h.enabled,checkedIds_append hle handled,if_pos ordinary,
      List.foldl_append,← hcounted]
    rfl
  | check c busy checking statics handled =>
    refine ⟨by rw [statics,Checking.step_checkCorrectness]; exact h.enabled,by rw [handled]; exact hle,?_⟩
    have hcounted := h.counted
    rw [busy] at hcounted
    rw [checking,statics,Checking.finished_step,State.checkedIds,handled]
    exact hcounted

/-- What a call of `EnableCorrectnessCheck` that switches the check on has stored so far. -/
def State.Resets (e : State κ) (c : κ) : Prop :=
  match e.calls c with
  | .storeCheck enabled => enabled ≠ 0
  | .resetExpectedSeq => e.statics.checkCorrectness = true
  | .resetGapCount => e.statics.checkCorrectness = true ∧ e.statics.expectedSeq = 1
  | .resetDupCount =>
      e.statics.checkCorrectness = true ∧ e.statics.expectedSeq = 1 ∧ e.statics.gapCount = 0
  | .resetLastSeqSeen =>
      e.statics.checkCorrectness = true ∧ e.statics.expectedSeq = 1 ∧ e.statics.gapCount = 0 ∧
        e.statics.dupCount = 0
  | .ret _ => e.statics = ⟨true,1,0,0,0⟩
  | _ => False

def State.Reads (e : State κ) (c : κ) : Prop :=
  match e.calls c with
  | .loadLastSeqSeen => True
  | .loadGapCount lastSeq => lastSeq = e.statics.lastSeqSeen
  | .loadDupCount lastSeq gap => lastSeq = e.statics.lastSeqSeen ∧ gap = e.statics.gapCount
  | .retStats lastSeq gap dup =>
      lastSeq = e.statics.lastSeqSeen ∧ gap = e.statics.gapCount ∧ dup = e.statics.dupCount
  | _ => False

theorem State.Resets.next {a : Act κ} {c : κ} (h : e.Resets c) (hr : system.Reachable e)
    (hidle : e.checking = none) (ha : ∀ c' ∈ e.enabler a, c' = c)
    (hn : e.next a = some e') : e'.Resets c := by
  by_cases hclient : ∃ b, a = .client c b
  · obtain ⟨b,rfl⟩ := hclient
    replace hn : e.client c b = some e' := hn
    cases hc : e.calls c with
    | storeCheck enabled =>
      replace h : enabled ≠ 0 := by simpa only [State.Resets,hc] using h
      simp only [State.client,hc,h,ne_eq,not_false_eq_true,decide_true,if_true,Option.some.injEq] at hn
      subst hn
      rw [State.Resets,State.setCall_calls_self]
      rfl
    | resetExpectedSeq =>
      simp only [State.Resets,hc] at h
      simp only [State.client,hc,Option.some.injEq] at hn
      subst hn
      rw [State.Resets,State.setCall_calls_self]
      exact ⟨h,rfl⟩
    | resetGapCount =>
      simp only [State.Resets,hc] at h
      simp only [State.client,hc,Option.some.injEq] at hn
      subst hn
      rw [State.Resets,State.setCall_calls_self]
      exact ⟨h.1,h.2,rfl⟩
    | resetDupCount =>
      simp only [State.Resets,hc] at h
      simp only [State.client,hc,Option.some.injEq] at hn
      subst hn
      rw [State.Resets,State.setCall_calls_self]
      exact ⟨h.1,h.2.1,h.2.2,rfl⟩
    | resetLastSeqSeen =>
      simp only [State.Resets,hc] at h
      simp only [State.client,hc,Option.some.injEq] at hn
      subst hn
      obtain ⟨hon,hexp,hgap,hdup⟩ := h
      rw [State.Resets,State.setCall_calls_self]
      simp only [State.setCall,hon,hexp,hgap,hdup]
    | ret n => simp [State.client,hc] at hn
    | _ => simp only [State.Resets,hc] at h
  · have hother : e.enabler a = none := by
      cases a with
      | client c' b =>
        cases he : e.enabler (.client c' b) with
        | none => rfl
        | some c'' =>
          have hc' : c' = c'' := by
            simp only [State.enabler] at he
            split at he <;> simp_all
          exact (hclient ⟨b,by rw [hc',ha c'' he]⟩).elim
      | _ => rfl
    have hbusy : e.calls c ≠ .idle := fun hi => by rw [State.Resets,hi] at h; exact h
    obtain ⟨hcalls,-,-⟩ := (State.next_calls (reachable_flow hr).1 hn).frame (reachable_clients hr) hbusy
      fun b hb => hclient ⟨b,hb⟩
    rw [State.Resets,hcalls,(State.next_checker hn hother).statics_eq hidle]
    exact h

theorem State.Reads.next {a : Act κ} {c : κ} (h : e.Reads c) (hr : system.Reachable e)
    (hidle : e.checking = none) (ha : e.enabler a = none) (hn : e.next a = some e') : e'.Reads c := by
  by_cases hclient : ∃ b, a = .client c b
  · obtain ⟨b,rfl⟩ := hclient
    replace hn : e.client c b = some e' := hn
    cases hc : e.calls c with
    | loadLastSeqSeen =>
      simp only [State.client,hc,Option.some.injEq] at hn
      subst hn
      rw [State.Reads,State.setCall_calls_self]
      rfl
    | loadGapCount lastSeq =>
      simp only [State.Reads,hc] at h
      simp only [State.client,hc,Option.some.injEq] at hn
      subst hn
      rw [State.Reads,State.setCall_calls_self]
      exact ⟨h,rfl⟩
    | loadDupCount lastSeq gap =>
      simp only [State.Reads,hc] at h
      simp only [State.client,hc,Option.some.injEq] at hn
      subst hn
      rw [State.Reads,State.setCall_calls_self]
      exact ⟨h.1,h.2,rfl⟩
    | retStats lastSeq gap dup => simp [State.client,hc] at hn
    | _ => simp only [State.Reads,hc] at h
  · have hbusy : e.calls c ≠ .idle := fun hi => by rw [State.Reads,hi] at h; exact h
    obtain ⟨hcalls,-,-⟩ := (State.next_calls (reachable_flow hr).1 hn).frame (reachable_clients hr) hbusy
      fun b hb => hclient ⟨b,hb⟩
    rw [State.Reads,hcalls,(State.next_checker hn ha).statics_eq hidle]
    exact h

/-- `GetConsumerStats` tells the truth about the requests that the dispatcher has gone
through since `EnableCorrectnessCheck`, in the order of their tickets: the last id, how
many were skipped where the maximum advanced, how many were no larger than it; `(N,0,0)`
after 1 to N in order only. Both calls make their accesses one by one, so no check may
be on its way during either of them, and none of the two calls is disturbed by another
call of `EnableCorrectnessCheck`. -/
theorem checker_truthful {s t u v : State κ} {resetting counting reading : List (Act κ)} {c c' : κ}
    {enabled : Int32} {n : Nat} {lastSeq gap dup : UInt64}
    (h : system.Reachable s) (hcall : s.calls c = .storeCheck enabled) (hen : enabled ≠ 0)
    (hreset : system.Run s resetting t) (hret : t.calls c = .ret n) (ht : t.checking = none)
    (hrun : system.Run t counting u) (hload : u.calls c' = .loadLastSeqSeen)
    (hread : system.Run u reading v) (hstats : v.calls c' = .retStats lastSeq gap dup)
    (hv : v.checking = none)
    (ha : system.Along (fun e a => e.checking = none ∧ ∀ c' ∈ e.enabler a, c' = c) s resetting)
    (hb : system.Along (fun e a => e.enabler a = none) t counting)
    (hc : system.Along (fun e a => e.checking = none ∧ e.enabler a = none) u reading)
    (hlen : (v.checkedIds t.handled.length).length < 2^64) :
    v.handled <+: v.accepted ∧
    (⟨lastSeq.toNat,gap.toNat,dup.toNat⟩ : Stats) = report (v.checkedIds t.handled.length) ∧
    ∀ n, (⟨lastSeq.toNat,gap.toNat,dup.toNat⟩ : Stats) = ⟨n,0,0⟩ ↔
      (v.checkedIds t.handled.length).map UInt64.toNat = List.range' 1 n := by
  have ht' := h.run hreset
  have hu' := ht'.run hrun
  have hstored : t.Resets c :=
    h.invariant_along (fun _ _ _ hr hi hp hn => State.Resets.next hi hr hp.1 hp.2 hn) hreset ha
      (by rw [State.Resets,hcall]; exact hen)
  have hon : t.statics = ⟨true,1,0,0,0⟩ := by simpa only [State.Resets,hret] using hstored
  -- what the dispatcher counts from the return of the one call to that of the other
  have hcounting : Counting t.handled.length t.statics v := by
    refine (hrun.append hread).invariant_along (I := Counting t.handled.length t.statics)
      (P := fun e a => e.enabler a = none)
      (fun _ _ _ hi hp hn => Counting.next hi (State.next_checker hn hp)) ?_ ⟨?_,Nat.le_refl _,?_⟩
    · exact hb.append hrun (hc.imp fun _ _ hp => hp.2)
    · rw [hon]
    · simp [ht,finished,State.checkedIds]
  have hloaded : v.Reads c' :=
    hu'.invariant_along (fun _ _ _ hr hi hp hn => State.Reads.next hi hr hp.1 hp.2 hn) hread hc
      (by rw [State.Reads,hload]; trivial)
  obtain ⟨rfl,rfl,rfl⟩ : lastSeq = v.statics.lastSeqSeen ∧ gap = v.statics.gapCount ∧
      dup = v.statics.dupCount := by simpa only [State.Reads,hstats] using hloaded
  have hfold : v.statics = (v.checkedIds t.handled.length).foldl check t.statics := by
    simpa only [hv,finished] using hcounting.counted
  have hids : ∀ id ∈ v.checkedIds t.handled.length, id ≠ barrierId := by
    intro id hid
    simp only [State.checkedIds,List.mem_map,List.mem_filter,decide_eq_true_eq] at hid
    obtain ⟨req,⟨-,ho⟩,rfl⟩ := hid
    exact ho
  have hzero : Tally 0 0 0 t.statics := by
    rw [hon]
    exact ⟨rfl,rfl,rfl⟩
  have htally := hzero.fold hids (Nat.le_refl 0) (by omega)
  have hlast : ((v.checkedIds t.handled.length).foldl check t.statics).lastSeqSeen = _ :=
    fold_lastSeqSeen
  rw [← hfold] at htally hlast
  have hreport : (⟨v.statics.lastSeqSeen.toNat,v.statics.gapCount.toNat,v.statics.dupCount.toNat⟩ : Stats)
      = report (v.checkedIds t.handled.length) := by
    simp only [report,htally.gap,htally.dup,hlast,hon,Nat.zero_add]
  refine ⟨?_,hreport,fun n => by rw [hreport]; exact report_eq_iff⟩
  exact (List.prefix_append _ _).trans (reachable_flow (hu'.run hread)).1.isPrefix

/-- Call 0 switches the check on, call 1 brings three requests in, call 2 reads the counters. -/
def checkStart : State Nat :=
  (system.exec (initEngine false 0) [.start 0 (.enableCorrectnessCheck 1)]).get (by decide +kernel)

def resetActs : List (Act Nat) := List.replicate 5 (.client 0 false)

def checkOn : State Nat := (system.exec checkStart resetActs).get (by decide +kernel)

def countActs : List (Act Nat) :=
  .start 1 (.enqueueBatch threeRequests) :: List.replicate 23 (.client 1 false) ++
    List.replicate 64 (.dispatch false) ++ [.start 2 .getConsumerStats]

def checkRead : State Nat := (system.exec checkOn countActs).get (by decide +kernel)

def readActs : List (Act Nat) := List.replicate 3 (.client 2 false)

def checkEnd : State Nat := (system.exec checkRead readActs).get (by decide +kernel)

theorem checkStart_reachable : system.Reachable checkStart :=
  .exec (initEngine_init false 0) (by decide +kernel)

theorem checker_truthful_three : checkEnd.calls 2 = .retStats 3 0 0 ∧
    checkEnd.checkedIds checkOn.handled.length = [1,2,3] ∧
    (⟨3,0,0⟩ : Stats) = report (checkEnd.checkedIds checkOn.handled.length) :=
  have hstats : checkEnd.calls 2 = .retStats 3 0 0 := by decide +kernel
  have hcall : checkStart.calls 0 = .storeCheck 1 := by decide +kernel
  have hret : checkOn.calls 0 = .ret 0 := by decide +kernel
  ⟨hstats,by decide +kernel,(checker_truthful checkStart_reachable hcall (by decide)
    (System.run_of_exec (Option.some_get _).symm) hret (by decide +kernel)
    (System.run_of_exec (Option.some_get _).symm) (by decide +kernel)
    (System.run_of_exec (Option.some_get _).symm) hstats (by decide +kernel) (by decide +kernel)
    (by decide +kernel) (by decide +kernel) (by decide +kernel)).2.1⟩

end Runs
end Flashsale.CoreEngine
