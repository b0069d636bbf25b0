import Flashsale.EndToEnd
import Mathlib
set_option autoImplicit false

namespace Flashsale.Engine
open Transition

structure Statics where
  checkCorrectness : Bool
  expectedSeq : UInt64
  gapCount : UInt64
  dupCount : UInt64
  lastSeqSeen : UInt64

def Statics.enableCorrectnessCheck (st : Statics) (enabled : Int32) : Statics :=
  let st := { st with checkCorrectness := enabled ≠ 0 }
  if enabled ≠ 0 then
    { st with expectedSeq := 1, gapCount := 0, dupCount := 0, lastSeqSeen := 0 }
  else st

structure Stats where
  lastSeq : Nat
  gap : Nat
  dup : Nat
  deriving DecidableEq

def Statics.getConsumerStats (st : Statics) : Stats where
  lastSeq := st.lastSeqSeen.toNat
  gap := st.gapCount.toNat
  dup := st.dupCount.toNat

def largest (m : Nat) (ids : List UInt64) : Nat := ids.foldl (fun m id => max m id.toNat) m

/-- The ids skipped each time the maximum, which is `m`, advances. -/
def skipped (m : Nat) : List UInt64 → Nat
  | [] => 0
  | id :: ids => (if m + 1 < id.toNat then id.toNat - m - 1 else 0) + skipped (max m id.toNat) ids

/-- The ids that do not exceed the maximum, which is `m`. -/
def repeated (m : Nat) : List UInt64 → Nat
  | [] => 0
  | id :: ids => (if id.toNat ≤ m then 1 else 0) + repeated (max m id.toNat) ids

def report (ids : List UInt64) : Stats where
  lastSeq := largest 0 ids
  gap := skipped 0 ids
  dup := repeated 0 ids

section Report
variable {m n : Nat} {id : UInt64} {ids : List UInt64}

theorem le_largest (m : Nat) (ids : List UInt64) : m ≤ largest m ids := by
  induction ids generalizing m with
  | nil => exact Nat.le_refl m
  | cons id ids ih => exact (Nat.le_max_left m id.toNat).trans (ih _)

theorem counted_iff : skipped m ids = 0 ∧ repeated m ids = 0 ↔
    ids.map UInt64.toNat = List.range' (m+1) ids.length := by
  induction ids generalizing m with
  | nil => simp [skipped,repeated]
  | cons id ids ih =>
    simp only [skipped,repeated,Nat.add_eq_zero_iff,List.map_cons,List.length_cons,
      List.range'_succ,List.cons.injEq]
    constructor
    · rintro ⟨⟨hskip,hs⟩,hrep,hr⟩
      have hid : id.toNat = m + 1 := by
        split at hskip <;> split at hrep <;> omega
      have hmax : max m id.toNat = m + 1 := by omega
      rw [hmax] at hs hr
      exact ⟨hid,ih.mp ⟨hs,hr⟩⟩
    · rintro ⟨hid,hrest⟩
      have hmax : max m id.toNat = m + 1 := by omega
      obtain ⟨hs,hr⟩ := ih.mpr hrest
      rw [hmax]
      exact ⟨⟨if_neg (by omega),hs⟩,if_neg (by omega),hr⟩

theorem largest_range' (h : ids.map UInt64.toNat = List.range' (m+1) ids.length) :
    largest m ids = m + ids.length := by
  induction ids generalizing m with
  | nil => rfl
  | cons id ids ih =>
    simp only [List.map_cons,List.length_cons,List.range'_succ,List.cons.injEq] at h
    have hmax : max m id.toNat = m + 1 := by omega
    change largest (max m id.toNat) ids = _
    rw [hmax,ih h.2,List.length_cons]
    omega

/-- `(N,0,0)` is the report of 1 to N in order, and of nothing else. -/
theorem report_eq_iff :
    report ids = ⟨n,0,0⟩ ↔ ids.map UInt64.toNat = List.range' 1 n := by
  simp only [report,Stats.mk.injEq,counted_iff]
  constructor
  · rintro ⟨hlast,hids⟩
    have hlen := largest_range' hids
    rw [hids,← hlast,hlen,Nat.zero_add,Nat.zero_add]
  · intro hids
    have hlen : ids.length = n := by
      rw [← ids.length_map (f := UInt64.toNat),hids,List.length_range']
    rw [← hlen] at hids ⊢
    exact ⟨by rw [largest_range' hids,Nat.zero_add],hids⟩

end Report

section Checker
variable {c : Checker} {id : UInt64} {ids : List UInt64}

structure Counts (c c' : Checker) (ids : List UInt64) : Prop where
  enabled : c'.enabled = true
  lastSeq : c'.lastSeq.toNat = largest c.lastSeq.toNat ids
  gap : c'.gap.toNat = c.gap.toNat + skipped c.lastSeq.toNat ids
  dup : c'.dup.toNat = c.dup.toNat + repeated c.lastSeq.toNat ids

theorem Checker.check_counts (id : UInt64) (hon : c.enabled = true) (hgap : c.gap.toNat ≤ c.lastSeq.toNat)
    (hdup : c.dup.toNat + 1 < 2^64) :
    Counts c (c.check id) [id] ∧ (c.check id).gap.toNat ≤ (c.check id).lastSeq.toNat := by
  have hid := id.toNat_lt
  have hone : (1 : UInt64).toNat = 1 := rfl
  by_cases hfirst : c.lastSeq = 0 ∧ id = 1
  · have hcheck : c.check id = { c with lastSeq := 1 } := by
      rw [Checker.check,if_pos hon,if_pos hfirst]
    have hlast : c.lastSeq.toNat = 0 := congrArg UInt64.toNat hfirst.1
    have hseq : id.toNat = 1 := congrArg UInt64.toNat hfirst.2
    rw [hcheck]
    refine ⟨⟨hon,?_,?_,?_⟩,?_⟩
    · simp [largest,hlast,hseq]
    · simp [skipped,hlast,hseq]
    · simp [repeated,hlast,hseq]
    · change c.gap.toNat ≤ 1
      omega
  by_cases hgt : id > c.lastSeq
  · have hlt := UInt64.lt_iff_toNat_lt.mp hgt
    have hcheck : c.check id = { c with
        gap := if id ≠ c.lastSeq + 1 then c.gap + (id - c.lastSeq - 1) else c.gap
        lastSeq := id } := by
      rw [Checker.check,if_pos hon,if_neg hfirst,if_pos hgt]
    have hsucc : (c.lastSeq + 1).toNat = c.lastSeq.toNat + 1 := by
      rw [UInt64.toNat_add,hone,Nat.mod_eq_of_lt (by omega)]
    have hmax : max c.lastSeq.toNat id.toNat = id.toNat := by omega
    have hnew : (if id ≠ c.lastSeq + 1 then c.gap + (id - c.lastSeq - 1) else c.gap).toNat =
        c.gap.toNat + if c.lastSeq.toNat + 1 < id.toNat then
          id.toNat - c.lastSeq.toNat - 1 else 0 := by
      by_cases hnext : id = c.lastSeq + 1
      · have heq : id.toNat = c.lastSeq.toNat + 1 := by rw [hnext,hsucc]
        rw [if_neg (by simp [hnext]),if_neg (by omega),Nat.add_zero]
      · have hne : id.toNat ≠ c.lastSeq.toNat + 1 := fun h =>
          hnext (UInt64.toNat_inj.mp (h.trans hsucc.symm))
        have hsub : (id - c.lastSeq - 1).toNat = id.toNat - c.lastSeq.toNat - 1 := by
          have hfrom := UInt64.toNat_sub_of_le id c.lastSeq (UInt64.le_of_lt hgt)
          rw [UInt64.toNat_sub_of_le _ 1 (UInt64.le_iff_toNat_le.mpr (by omega)),hfrom,hone]
        rw [if_pos hnext,if_pos (by omega),UInt64.toNat_add,hsub,Nat.mod_eq_of_lt (by omega)]
    rw [hcheck]
    refine ⟨⟨hon,?_,?_,?_⟩,?_⟩
    · simp [largest,hmax]
    · simpa [skipped] using hnew
    · simp [repeated,Nat.not_le.mpr hlt]
    · change UInt64.toNat (if _ then _ else _) ≤ id.toNat
      rw [hnew]
      split <;> omega
  · have hle : id.toNat ≤ c.lastSeq.toNat :=
      UInt64.le_iff_toNat_le.mp (UInt64.not_lt.mp hgt)
    have hcheck : c.check id = { c with dup := c.dup + 1 } := by
      rw [Checker.check,if_pos hon,if_neg hfirst,if_neg hgt]
    have hnew : (c.dup + 1).toNat = c.dup.toNat + 1 := by
      rw [UInt64.toNat_add,hone,Nat.mod_eq_of_lt hdup]
    rw [hcheck]
    refine ⟨⟨hon,?_,?_,?_⟩,hgap⟩
    · simp [largest,hle]
    · simp [skipped]
      omega
    · simp [repeated,hle,hnew]

/-- The update is right: counters that a worker wrote would hold the report. -/
theorem Checker.fold_counts (ids : List UInt64) (hon : c.enabled = true)
    (hgap : c.gap.toNat ≤ c.lastSeq.toNat) (hdup : c.dup.toNat + ids.length < 2^64) :
    Counts c (ids.foldl Checker.check c) ids := by
  induction ids generalizing c with
  | nil => exact ⟨hon,rfl,rfl,rfl⟩
  | cons id ids ih =>
    rw [List.length_cons] at hdup
    obtain ⟨hone,hgap'⟩ := Checker.check_counts id hon hgap (by omega)
    have hlast : (c.check id).lastSeq.toNat = max c.lastSeq.toNat id.toNat := hone.lastSeq
    have hstep : (c.check id).dup.toNat ≤ c.dup.toNat + 1 := by
      rw [hone.dup]
      simp only [repeated]
      split <;> omega
    have hrest := ih hone.enabled hgap' (by omega)
    refine ⟨hrest.enabled,?_,?_,?_⟩
    · rw [List.foldl_cons,hrest.lastSeq,hlast]
      rfl
    · rw [List.foldl_cons,hrest.gap,hone.gap,hlast]
      simp only [skipped]
      omega
    · rw [List.foldl_cons,hrest.dup,hone.dup,hlast]
      simp only [repeated]
      omega

end Checker
def Statics.checker (st : Statics) : Checker where
  enabled := st.checkCorrectness
  lastSeq := st.lastSeqSeen
  gap := st.gapCount
  dup := st.dupCount

def Statics.store (st : Statics) (c : Checker) : Statics :=
  { st with
    checkCorrectness := c.enabled
    lastSeqSeen := c.lastSeq
    gapCount := c.gap
    dupCount := c.dup }

/-- Written through such pointers after `EnableCorrectnessCheck(1)`, the stats are the report. -/
theorem Statics.store_report (st : Statics) {ids : List UInt64} (h : ids.length < 2^64) :
    ((st.enableCorrectnessCheck 1).store
      (ids.foldl Checker.check (st.enableCorrectnessCheck 1).checker)).getConsumerStats =
        report ids := by
  have hcounts := Checker.fold_counts ids (c := (st.enableCorrectnessCheck 1).checker)
    rfl (Nat.le_refl 0) (by simpa [Statics.enableCorrectnessCheck,Statics.checker] using h)
  simp only [Statics.getConsumerStats,Statics.store,hcounts.lastSeq,hcounts.gap,hcounts.dup]
  simp [report,Statics.enableCorrectnessCheck,Statics.checker]

def Worker.point (w : Worker) (st : Statics) : Worker :=
  { w with checker := w.checker.map fun _ => st.checker }

structure Bridge (κ : Type) where
  engine : State κ
  statics : Statics

inductive BridgeAct (κ : Type) where
  | engine (a : Act κ)
  | enableCorrectnessCheck (enabled : Int32)

variable {κ : Type} [DecidableEq κ]

def Statics.after (st : Statics) (e : State κ) : Act κ → Statics
  | .work i _ => (e.shards i).worker.checker.elim st st.store
  | _ => st

def Bridge.next (b : Bridge κ) : BridgeAct κ → Option (Bridge κ)
  | .engine a =>
      let e := { b.engine with shards := fun i =>
        { b.engine.shards i with worker := (b.engine.shards i).worker.point b.statics } }
      (e.next a).map fun e => { engine := e, statics := b.statics.after e a }
  | .enableCorrectnessCheck enabled =>
      some { b with statics := b.statics.enableCorrectnessCheck enabled }

def bridge : System (Bridge κ) (BridgeAct κ) where
  init b := system.init b.engine
  next := Bridge.next

def processedIds (i : ShardId) (b b' : Bridge κ) : List UInt64 :=
  ((b'.engine.shards i).worker.processed.drop
    (b.engine.shards i).worker.processed.length).map Request.requestId

/-- The stats are the truth about `ids`, and `(N,0,0)` where these are 1 to N only. -/
structure Truthful (stats : Stats) (ids : List UInt64) : Prop where
  report : stats = report ids
  counted : ∀ n, stats = ⟨n,0,0⟩ ↔ ids.map UInt64.toNat = List.range' 1 n

/-- The constructor sets the pointers to null, and nothing sets them again. -/
def Unwired (e : State κ) : Prop := ∀ i, (e.shards i).worker.checker = none

section Bridge
variable {e e' : State κ} {b b' : Bridge κ} {a : Act κ} {as : List (Act κ)} {i : ShardId}

theorem WorkStep.unwired {w w' : Worker} {sh sh' : Shared κ} {inp : WorkerInput}
    (h : WorkStep w sh i inp sh' w') (hw : w.checker = none) : w'.checker = none := by
  cases h with
  | process pc step => cases step <;> simp [Worker.decide,Worker.take,hw]
  | @flag req res items count pc =>
    obtain ⟨wal,hwal⟩ := w.journal_eq req res inp.systemNow
    rw [hwal]
    exact hw
  | _ => exact hw

theorem Unwired.next (h : Unwired e) (hn : e.next a = some e') : Unwired e' := by
  intro i
  rcases State.next_shard hn i with heq | hstep
  · rw [heq]
    exact h i
  · generalize e'.shards i = s at hstep
    cases hstep with
    | work hw => exact (Worker.step_cases hw).unwired (h i)
    | _ => exact h i

theorem Worker.point_of_none {w : Worker} {st : Statics} (h : w.checker = none) :
    w.point st = w := by
  obtain ⟨⟩ := w
  simp only [Worker.point] at h ⊢
  simp [h]

theorem Unwired.bridge_next (h : Unwired b.engine) (hn : bridge.next b (.engine a) = some b') :
    b.engine.next a = some b'.engine ∧ b'.statics = b.statics := by
  have hsame : (fun i =>
      { b.engine.shards i with worker := (b.engine.shards i).worker.point b.statics }) =
        b.engine.shards := by
    funext i
    rw [Worker.point_of_none (h i)]
  obtain ⟨e,he,rfl⟩ := Option.map_eq_some_iff.mp hn
  rw [hsame] at he
  refine ⟨he,?_⟩
  cases a with
  | work i inp => simp [Statics.after,h.next he i]
  | _ => rfl

theorem bridge_unwired (h : bridge.Reachable b) : Unwired b.engine := by
  refine h.invariant (I := fun b => Unwired b.engine) (fun b hi => ?_) fun b a b' hb hn => ?_
  · obtain ⟨_,_,_,_,he⟩ := hi
    rw [he]
    exact fun _ => rfl
  · cases a with
    | engine a => exact hb.next (hb.bridge_next hn).1
    | enableCorrectnessCheck enabled =>
      cases hn
      exact hb

theorem bridge_run_statics (h : bridge.Reachable b) (hr : bridge.Run b (as.map .engine) b') :
    b'.statics = b.statics := by
  induction as generalizing b with
  | nil =>
    cases hr
    rfl
  | cons a as ih =>
    cases hr with
    | cons hn hr =>
      rw [ih (h.step hn) hr]
      exact ((bridge_unwired h).bridge_next hn).2

theorem largest_eq_zero {ids : List UInt64} (hids : ∀ id ∈ ids, 0 < id) (h : largest 0 ids = 0) :
    ids = [] := by
  cases ids with
  | nil => rfl
  | cons id ids =>
    have hle : max 0 id.toNat ≤ largest 0 (id :: ids) := le_largest _ _
    have hpos := UInt64.lt_iff_toNat_lt.mp (hids id List.mem_cons_self)
    rw [h] at hle
    simp at hle hpos
    omega

/-- After `EnableCorrectnessCheck(1)` the stats are the truth only as long as the worker
has processed nothing. -/
theorem stats_truthful_iff {b₁ : Bridge κ} (h : bridge.Reachable b)
    (hs : bridge.next b (.enableCorrectnessCheck 1) = some b₁)
    (hr : bridge.Run b₁ (as.map .engine) b') (hids : ∀ id ∈ processedIds i b₁ b', 0 < id) :
    Truthful b'.statics.getConsumerStats (processedIds i b₁ b') ↔ processedIds i b₁ b' = [] := by
  have hstats : b'.statics.getConsumerStats = ⟨0,0,0⟩ := by
    rw [bridge_run_statics (h.step hs) hr]
    cases hs
    rfl
  rw [hstats]
  constructor
  · intro ht
    exact largest_eq_zero hids (congrArg Stats.lastSeq ht.report).symm
  · intro hnone
    rw [hnone]
    exact ⟨rfl,fun n => (report_eq_iff : report [] = _ ↔ _)⟩

end Bridge

def checkedStart : Bridge Nat where
  engine := initEngine 0 0 0 0
  statics := ⟨false,1,0,0,0⟩

def enabledState : Bridge Nat :=
  (bridge.next checkedStart (.enableCorrectnessCheck 1)).get (by decide +kernel)

def firstRun : List (Act Nat) :=
  .start 0 (.enqueueRequest (saleRequest 1)) :: List.replicate 11 (.client 0 1 false) ++
    List.replicate 12 (.dispatch 1 3 4 false) ++ List.replicate 12 (.work 1 default)

def firstState : Bridge Nat :=
  (bridge.exec enabledState (firstRun.map .engine)).get (by decide +kernel)

theorem checkedStart_reachable : bridge.Reachable checkedStart := .of_init ⟨0,0,0,0,rfl⟩

theorem enabledState_next :
    bridge.next checkedStart (.enableCorrectnessCheck 1) = some enabledState :=
  (Option.some_get _).symm

theorem firstState_run : bridge.Run enabledState (firstRun.map .engine) firstState :=
  System.run_of_exec (Option.some_get _).symm

/-- Request 1 is processed, and the stats are still zero. -/
theorem stats_stay_zero : bridge.next checkedStart (.enableCorrectnessCheck 1) = some enabledState ∧
    bridge.Run enabledState (firstRun.map .engine) firstState ∧
    processedIds 1 enabledState firstState = [1] ∧ processedIds 0 enabledState firstState = [] ∧
    ¬ Truthful firstState.statics.getConsumerStats [1] := by
  refine ⟨enabledState_next,firstState_run,by decide +kernel,by decide +kernel,fun h => ?_⟩
  have hreport := h.report
  revert hreport
  decide +kernel

theorem stats_truthful_iff_first : ¬ Truthful firstState.statics.getConsumerStats
    (processedIds 1 enabledState firstState) := by
  have hids : processedIds 1 enabledState firstState = [1] := by decide +kernel
  have hpos : ∀ id ∈ processedIds 1 enabledState firstState, 0 < id := by
    simp [hids]
  rw [stats_truthful_iff checkedStart_reachable enabledState_next firstState_run hpos,hids]
  simp

end Flashsale.Engine
