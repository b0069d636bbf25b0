import Flashsale.Transition
import Flashsale.Worker
import Mathlib
set_option autoImplicit false

/-!
The thread objects of the engine under calls of `InitEngine`, `RequestStop`,
`JoinEngine` and `StopEngine`: nothing joins the monitor.
-/

namespace Flashsale.Engine
open Transition

abbrev Handle := Bool

inductive LifecycleCall where
  | initEngine
  | requestStop
  | joinEngine
  | stopEngine
  deriving DecidableEq

/-- The globals that own threads; `workers` has the `thread_` of each worker.
`terminated` is whether a joinable object was destroyed or assigned over. The last
three are history: the threads started and joined, and the last call. -/
structure Lifecycle where
  running : Bool
  dispatcherThreads : List Handle
  workers : List Handle
  monitorThread : Handle
  terminated : Bool
  started : Nat
  joined : Nat
  last : Option LifecycleCall
  deriving DecidableEq

def joinable (hs : List Handle) : Nat := hs.count true

def Lifecycle.drop (s : Lifecycle) (hs : List Handle) : Lifecycle :=
  { s with terminated := s.terminated || hs.any id }

def Lifecycle.initEngine (s : Lifecycle) : Lifecycle :=
  if s.running then s
  else
    let s := { s with running := true }
    let s := { s.drop s.workers with
      workers := List.replicate kWorkerCount true
      started := s.started + kWorkerCount }
    let s := { s.drop s.dispatcherThreads with
      dispatcherThreads := List.replicate kWorkerCount true
      started := s.started + kWorkerCount }
    { s.drop [s.monitorThread] with
      monitorThread := true
      started := s.started + 1 }

def Lifecycle.requestStop (s : Lifecycle) : Lifecycle :=
  { s with
    running := false
    dispatcherThreads := s.dispatcherThreads.map fun _ => false
    joined := s.joined + joinable s.dispatcherThreads }

def Lifecycle.joinEngine (s : Lifecycle) : Lifecycle :=
  let s := { s with
    workers := s.workers.map fun _ => false
    joined := s.joined + joinable s.workers }
  { s.drop s.workers with workers := [] }

def Lifecycle.stopEngine (s : Lifecycle) : Lifecycle := s.requestStop.joinEngine

def Lifecycle.run (s : Lifecycle) : LifecycleCall → Lifecycle
  | .initEngine => s.initEngine
  | .requestStop => s.requestStop
  | .joinEngine => s.joinEngine
  | .stopEngine => s.stopEngine

/-- A call runs to completion, unless the process is gone. -/
def Lifecycle.next (s : Lifecycle) (c : LifecycleCall) : Option Lifecycle :=
  if s.terminated then none else some { s.run c with last := some c }

def Lifecycle.start : Lifecycle where
  running := false
  dispatcherThreads := []
  workers := []
  monitorThread := false
  terminated := false
  started := 0
  joined := 0
  last := none

def lifecycle : System Lifecycle LifecycleCall where
  init s := s = .start
  next := Lifecycle.next

/-- The engine as a first `InitEngine` leaves it. -/
structure Lifecycle.Fresh (s : Lifecycle) : Prop where
  running : s.running = true
  alive : s.terminated = false
  dispatcherThreads : s.dispatcherThreads = List.replicate kWorkerCount true
  workers : s.workers = List.replicate kWorkerCount true
  monitorThread : s.monitorThread = true

/-- No thread object was lost while joinable, and after `StopEngine` every thread is
joined and `InitEngine` starts the engine again. -/
structure Lifecycle.Restartable (s : Lifecycle) : Prop where
  alive : s.terminated = false
  joined : s.last = some .stopEngine → s.joined = s.started
  fresh : s.last = some .stopEngine → s.initEngine.Fresh

/-- `StopEngine` only where the engine was never started, and `InitEngine` only there or
while it runs. The monitor is joinable from the first start on. -/
def StartedOnce (s : Lifecycle) : LifecycleCall → Prop
  | .initEngine => s.running = true ∨ s.monitorThread = false
  | .stopEngine => s.monitorThread = false
  | .requestStop | .joinEngine => True

/-- Each thread started is joined or owned, and before the first start there is none. -/
structure Lifecycle.Owned (s : Lifecycle) : Prop where
  restartable : s.Restartable
  threads : s.started = s.joined + joinable s.dispatcherThreads + joinable s.workers +
    joinable [s.monitorThread]
  unstarted : s.monitorThread = false →
    s.running = false ∧ joinable s.dispatcherThreads = 0 ∧ joinable s.workers = 0

theorem joinable_eq_zero_iff (hs : List Handle) : joinable hs = 0 ↔ hs.any id = false := by
  induction hs with
  | nil => simp [joinable]
  | cons h hs ih =>
    cases h with
    | false => simpa [joinable] using ih
    | true => simp [joinable]

@[simp] theorem joinable_map_false (hs : List Handle) : joinable (hs.map fun _ => false) = 0 := by
  induction hs with
  | nil => rfl
  | cons h hs ih => simpa [joinable] using ih

@[simp] theorem joinable_replicate (n : Nat) : joinable (List.replicate n true) = n := by
  simp [joinable]

@[simp] theorem joinable_nil : joinable [] = 0 := rfl

@[simp] theorem joinable_single (h : Handle) : joinable [h] = h.toNat := by cases h <;> rfl

section Calls
variable {s t : Lifecycle}

theorem drop_of_joined {hs : List Handle} (h : joinable hs = 0) : s.drop hs = s := by
  simp [Lifecycle.drop,(joinable_eq_zero_iff hs).mp h]

theorem initEngine_running (hr : s.running = true) : s.initEngine = s := by
  rw [Lifecycle.initEngine,if_pos hr]

theorem initEngine_unstarted (ha : s.terminated = false) (hr : s.running = false)
    (hd : joinable s.dispatcherThreads = 0) (hw : joinable s.workers = 0)
    (hm : s.monitorThread = false) :
    s.initEngine.Fresh ∧ s.initEngine.started = s.started + 2*kWorkerCount + 1 ∧
      s.initEngine.joined = s.joined := by
  have hd' := (joinable_eq_zero_iff _).mp hd
  have hw' := (joinable_eq_zero_iff _).mp hw
  have heq : s.initEngine = { s with
      running := true
      dispatcherThreads := List.replicate kWorkerCount true
      workers := List.replicate kWorkerCount true
      monitorThread := true
      started := s.started + kWorkerCount + kWorkerCount + 1 } := by
    simp [Lifecycle.initEngine,Lifecycle.drop,hr,hd',hw',hm]
  rw [heq]
  refine ⟨⟨rfl,ha,rfl,rfl,rfl⟩,?_,rfl⟩
  dsimp only
  omega

theorem joinEngine_eq (s : Lifecycle) : s.joinEngine =
    { s with workers := [], joined := s.joined + joinable s.workers } := by
  rw [Lifecycle.joinEngine]
  dsimp only
  rw [drop_of_joined (joinable_map_false _)]

theorem start_owned : Lifecycle.start.Owned where
  restartable := ⟨rfl,(fun h => by cases h),(fun h => by cases h)⟩
  threads := rfl
  unstarted _ := ⟨rfl,rfl,rfl⟩

theorem Lifecycle.next_eq {c : LifecycleCall} (hn : s.next c = some t) :
    s.terminated = false ∧ t = { s.run c with last := some c } := by
  unfold Lifecycle.next at hn
  split at hn
  · cases hn
  · exact ⟨by simpa using ‹¬ s.terminated = true›,(Option.some.inj hn).symm⟩

theorem Lifecycle.Owned.of_threads (ha : t.terminated = false) (hl : t.last ≠ some .stopEngine)
    (ht : t.started = t.joined + joinable t.dispatcherThreads + joinable t.workers +
      joinable [t.monitorThread])
    (hu : t.monitorThread = false →
      t.running = false ∧ joinable t.dispatcherThreads = 0 ∧ joinable t.workers = 0) : t.Owned :=
  ⟨⟨ha,fun h => absurd h hl,fun h => absurd h hl⟩,ht,hu⟩

theorem Lifecycle.Owned.next {c : LifecycleCall} (h : s.Owned) (hp : StartedOnce s c)
    (hn : s.next c = some t) : t.Owned := by
  obtain ⟨ha,rfl⟩ := Lifecycle.next_eq hn
  have hthreads := h.threads
  cases c with
  | initEngine =>
    by_cases hr : s.running = true
    · simp only [Lifecycle.run,initEngine_running hr]
      exact .of_threads ha (by simp) hthreads h.unstarted
    · have hm : s.monitorThread = false := hp.resolve_left hr
      obtain ⟨hr,hd,hw⟩ := h.unstarted hm
      obtain ⟨hfresh,hstarted,hjoined⟩ := initEngine_unstarted ha hr hd hw hm
      refine .of_threads hfresh.alive (by simp) ?_ (fun hm' => ?_)
      · simp only [Lifecycle.run,hstarted,hjoined,hfresh.dispatcherThreads,hfresh.workers,
          hfresh.monitorThread,joinable_replicate]
        simp only [hd,hw,hm,joinable_single,Bool.toNat_false,Bool.toNat_true] at hthreads ⊢
        omega
      · exact absurd (hfresh.monitorThread.symm.trans hm') (by decide)
  | requestStop =>
    refine .of_threads ha (by simp) ?_ (fun hm => ?_)
    · simp only [Lifecycle.run,Lifecycle.requestStop,joinable_map_false]
      omega
    · exact ⟨rfl,joinable_map_false _,(h.unstarted hm).2.2⟩
  | joinEngine =>
    simp only [Lifecycle.run,joinEngine_eq]
    refine .of_threads ha (by simp) ?_ (fun hm => ?_)
    · simp only [hthreads,joinable_nil]
      omega
    · exact ⟨(h.unstarted hm).1,(h.unstarted hm).2.1,rfl⟩
  | stopEngine =>
    have hm : s.monitorThread = false := hp
    obtain ⟨-,hd,hw⟩ := h.unstarted hm
    have hall : s.started = s.joined := by simpa [hd,hw,hm] using hthreads
    have hjoined : joinable (s.dispatcherThreads.map fun _ => false) = 0 := joinable_map_false _
    simp only [Lifecycle.run,Lifecycle.stopEngine,joinEngine_eq,Lifecycle.requestStop,hd,hw,add_zero]
    refine ⟨⟨ha,fun _ => hall.symm,fun _ => ?_⟩,?_,fun _ => ⟨rfl,hjoined,rfl⟩⟩
    · refine (initEngine_unstarted ?_ ?_ ?_ ?_ ?_).1
      exacts [ha,rfl,hjoined,rfl,hm]
    · simp only [hjoined,hm,hall,joinable_nil,joinable_single,Bool.toNat_false,add_zero]

theorem Lifecycle.Owned.startedOnce {c : LifecycleCall} (h : s.Owned) (hn : s.next c = some t)
    (ht : t.Restartable) : StartedOnce s c := by
  obtain ⟨ha,rfl⟩ := Lifecycle.next_eq hn
  cases c with
  | initEngine =>
    by_contra hno
    obtain ⟨hr,hm⟩ := not_or.mp hno
    have hlost := ht.alive
    simp [Lifecycle.run,Lifecycle.initEngine,Lifecycle.drop,hr,hm] at hlost
  | stopEngine =>
    have hthreads := h.threads
    have hjoined := ht.joined rfl
    simp only [Lifecycle.run,Lifecycle.stopEngine,joinEngine_eq,Lifecycle.requestStop] at hjoined
    have hzero : s.monitorThread.toNat = 0 := by
      rw [joinable_single] at hthreads
      omega
    exact Bool.toNat_eq_zero.mp hzero
  | requestStop | joinEngine => trivial

end Calls

theorem restartable_iff {cs : List LifecycleCall} {s : Lifecycle} (hrun : lifecycle.Run .start cs s) :
    lifecycle.Along StartedOnce .start cs ↔ lifecycle.Throughout Lifecycle.Restartable .start cs :=
  System.along_iff_throughout (J := Lifecycle.Owned) (fun _ h => h.restartable)
    (fun _ _ _ h hp hn => h.next hp hn) (fun _ _ _ h hn ht => h.startedOnce hn ht) hrun start_owned

instance (s : Lifecycle) : DecidablePred (StartedOnce s)
  | .initEngine => inferInstanceAs (Decidable (_ ∨ _))
  | .stopEngine => inferInstanceAs (Decidable (_ = _))
  | .requestStop | .joinEngine => isTrue trivial

def lifecycleAfter (cs : List LifecycleCall) : Lifecycle := (lifecycle.exec .start cs).getD .start

def halvesRun : List LifecycleCall :=
  [.stopEngine,.initEngine,.initEngine,.requestStop,.joinEngine,.joinEngine]

theorem restartable_iff_halves : lifecycle.Throughout Lifecycle.Restartable .start halvesRun := by
  have hexec : lifecycle.exec .start halvesRun = some (lifecycleAfter halvesRun) := by decide +kernel
  exact (restartable_iff (System.run_of_exec hexec)).mp (by decide +kernel)

/-- The first `StopEngine` leaves one thread of five unjoined, and the second
`InitEngine` assigns over it. -/
theorem restart_terminates :
    lifecycle.Run .start [.initEngine,.stopEngine]
      (lifecycleAfter [.initEngine,.stopEngine]) ∧
    (lifecycleAfter [.initEngine,.stopEngine]).started = 5 ∧
    (lifecycleAfter [.initEngine,.stopEngine]).joined = 4 ∧
    lifecycle.Run .start [.initEngine,.stopEngine,.initEngine]
      (lifecycleAfter [.initEngine,.stopEngine,.initEngine]) ∧
    (lifecycleAfter [.initEngine,.stopEngine,.initEngine]).terminated = true :=
  ⟨System.run_of_exec (by decide +kernel),by decide +kernel,by decide +kernel,
    System.run_of_exec (by decide +kernel),by decide +kernel⟩

end Flashsale.Engine
