import Flashsale.BackendSteps
import Mathlib.Data.List.DropRight
set_option autoImplicit false

/-!
The circuit breaker of `EnqueueHandler`, which keeps a counter and a time, against
its rule, which is about the whole history of the calls that reached Redis.
-/

namespace Flashsale.Backend
open Cache Transition

structure RedisCall where
  ok : Bool
  time : Int
  deriving DecidableEq

def failuresInARow (calls : List RedisCall) : Nat := (calls.rtakeWhile fun c => !c.ok).length

def latestFailure (calls : List RedisCall) : Option Int :=
  ((calls.filter fun c => !c.ok).getLast?).map RedisCall.time

/-- `RedisCircuitDuration` in microseconds. -/
def circuitDuration : Int := redisCircuitDuration*1000000

/-- The rule: five failures in a row, the latest less than five seconds old. -/
def Tripped (calls : List RedisCall) (now : Int) : Prop :=
  redisFailureThreshold.toNat ≤ failuresInARow calls ∧
    ∃ time ∈ latestFailure calls, now - time < circuitDuration

/-- The breaker should be open, and is not: after exactly five failures, and in what
`Unix` cuts off the last second. -/
def Missed (calls : List RedisCall) (now : Int) : Prop :=
  Tripped calls now ∧ (failuresInARow calls = redisFailureThreshold.toNat ∨
    ∃ time ∈ latestFailure calls, redisCircuitDuration ≤ unix now - unix time)

instance (calls : List RedisCall) (now : Int) : Decidable (Tripped calls now) :=
  inferInstanceAs (Decidable (_ ∧ ∃ time ∈ latestFailure calls, now - time < circuitDuration))

instance (calls : List RedisCall) (now : Int) : Decidable (Missed calls now) :=
  inferInstanceAs (Decidable (_ ∧ (_ ∨
    ∃ time ∈ latestFailure calls, redisCircuitDuration ≤ unix now - unix time)))

section History
variable {calls : List RedisCall} {time now : Int}

@[simp] theorem failuresInARow_nil : failuresInARow [] = 0 := rfl

@[simp] theorem failuresInARow_success : failuresInARow (calls ++ [⟨true,time⟩]) = 0 := by
  simp [failuresInARow]

@[simp] theorem failuresInARow_failure :
    failuresInARow (calls ++ [⟨false,time⟩]) = failuresInARow calls + 1 := by
  simp [failuresInARow]

@[simp] theorem latestFailure_nil : latestFailure [] = none := rfl

@[simp] theorem latestFailure_success :
    latestFailure (calls ++ [⟨true,time⟩]) = latestFailure calls := by
  simp [latestFailure,List.filter_append]

@[simp] theorem latestFailure_failure :
    latestFailure (calls ++ [⟨false,time⟩]) = some time := by
  simp [latestFailure,List.filter_append]

theorem exists_latestFailure (h : 0 < failuresInARow calls) :
    ∃ time, latestFailure calls = some time := by
  rcases List.eq_nil_or_concat' calls with rfl | ⟨calls,⟨ok,time⟩,rfl⟩
  · exact absurd h (Nat.lt_irrefl 0)
  · cases ok with
    | false => exact ⟨time,latestFailure_failure⟩
    | true =>
      rw [failuresInARow_success] at h
      exact absurd h (Nat.lt_irrefl 0)

theorem failuresInARow_le (calls : List RedisCall) : failuresInARow calls ≤ calls.length :=
  (List.rtakeWhile_suffix _ _).length_le

theorem age_of_unix (h : unix now - unix time < redisCircuitDuration) :
    now - time < circuitDuration := by
  simp only [unix,redisCircuitDuration,circuitDuration] at h ⊢
  omega

end History

section Breaker
variable {ι : Type} [DecidableEq ι]

def redisCall (i : ι) (s : State ι) : ι × Act → Option RedisCall
  | (j,.handle (.deduct m) net _ now) =>
      if j = i then some ⟨(s.world.redis.call (.deduct m now) net).1.isSome,now⟩ else none
  | _ => none

def redisCalls (i : ι) : State ι → List (ι × Act) → List RedisCall
  | _, [] => []
  | s, a :: as =>
      (redisCall i s a).toList ++ (system.next s a).elim [] fun t => redisCalls i t as

/-- What the counter and the time of a process say about the calls so far. -/
structure Tracks (calls : List RedisCall) (x : Instance) : Prop where
  count : x.redisFailureCount = UInt32.ofNat (failuresInARow calls)
  last : ∀ time ∈ latestFailure calls, x.redisLastFailure = unix time

variable {i : ι} {s t : State ι} {a : ι × Act} {as : List (ι × Act)} {calls : List RedisCall}

theorem InstanceStep.breaker {x x' : Instance} {w w' : World} {a : Act}
    (h : InstanceStep x w a w' (some x'))
    (ha : ∀ m net code now, a ≠ .handle (.deduct m) net code now) :
    x'.redisFailureCount = x.redisFailureCount ∧ x'.redisLastFailure = x.redisLastFailure := by
  cases h with
  | receive m => exact ⟨rfl,rfl⟩
  | @handle hd y net code now called =>
    subst called
    cases hd with
    | check m =>
      simp only [Instance.handle]
      split <;> exact ⟨rfl,rfl⟩
    | deduct m => exact absurd rfl (ha m net code now)
    | register m => exact ⟨rfl,rfl⟩
    | enqueue m =>
      simp only [Instance.handle]
      split <;> exact ⟨rfl,rfl⟩
    | rollback r response =>
      simp only [Instance.handle]
      split <;> exact ⟨rfl,rfl⟩
  | process step =>
    obtain ⟨e,-,he⟩ := Option.map_eq_some_iff.mp step
    cases he
    exact ⟨rfl,rfl⟩
  | poll step =>
    obtain ⟨results,workers,-,-,rfl⟩ := poll_eq step
    exact ⟨rfl,rfl⟩
  | push step => cases push_cases step <;> exact ⟨rfl,rfl⟩
  | receiveOrder step =>
    obtain ⟨order,rest,-,-,rfl⟩ := receiveOrder_eq step
    exact ⟨rfl,rfl⟩
  | flushOrders step =>
    obtain ⟨-,-,rfl⟩ := flushOrders_eq step
    exact ⟨rfl,rfl⟩
  | receiveTask step =>
    obtain ⟨task,rest,-,-,-,rfl⟩ := receiveTask_eq step
    exact ⟨rfl,rfl⟩
  | flushTasks step =>
    obtain ⟨-,-,-,rfl⟩ := flushTasks_eq step
    exact ⟨rfl,rfl⟩
  | pipe step => cases pipe_cases step <;> exact ⟨rfl,rfl⟩
  | undo step =>
    obtain ⟨rest,-,-,rfl⟩ := undo_eq step
    exact ⟨rfl,rfl⟩
  | sweep step =>
    unfold Instance.sweep at step
    repeat' split at step
    all_goals cases step
    all_goals exact ⟨rfl,rfl⟩

theorem Tracks.deduct {x : Instance} {w : World} {m : Member} {net : Net} {code : Int32} {now : Int}
    (h : Tracks calls x) : Tracks
      (calls ++ [⟨(w.redis.call (.deduct m now) net).1.isSome,now⟩])
      (x.handle w (.deduct m) net code now).2 := by
  simp only [Instance.handle]
  cases hreply : (w.redis.call (.deduct m now) net).1 with
  | none =>
    refine ⟨?_,?_⟩
    · simp [h.count,UInt32.ofNat_add]
    · simp
  | some status =>
    have hreset : Tracks (calls ++ [⟨true,now⟩]) { x with redisFailureCount := 0 } :=
      ⟨by simp,by simpa using h.last⟩
    dsimp only
    repeat' split
    all_goals exact ⟨hreset.count,hreset.last⟩

theorem Tracks.next (h : ∀ x ∈ s.instances i, Tracks calls x) (hn : system.next s a = some t) :
    ∀ x ∈ t.instances i, Tracks (calls ++ (redisCall i s a).toList) x := by
  obtain ⟨j,a⟩ := a
  obtain ⟨x,y,hx,hstep,hinst⟩ := State.next_cases hn
  intro x' hx'
  rw [hinst] at hx'
  by_cases hij : j = i
  · subst hij
    rw [Function.update_self] at hx'
    cases hx'
    have htrack := h x hx
    by_cases ha : ∃ m net code now, a = .handle (.deduct m) net code now
    · obtain ⟨m,net,code,now,rfl⟩ := ha
      have hcall : redisCall j s (j,.handle (.deduct m) net code now) =
          some ⟨(s.world.redis.call (.deduct m now) net).1.isSome,now⟩ := if_pos rfl
      rw [hcall]
      generalize t.world = w' at hstep
      cases Instance.next_cases hstep with
      | handle net code now called =>
        subst called
        exact Tracks.deduct ⟨htrack.count,htrack.last⟩
    · have hkeep := (Instance.next_cases hstep).breaker fun m net code now he =>
        ha ⟨m,net,code,now,he⟩
      have hcall : redisCall j s (j,a) = none := by
        unfold redisCall
        split
        · rename_i heq
          cases heq
          exact absurd ⟨_,_,_,_,rfl⟩ ha
        · rfl
      rw [hcall,Option.toList_none,List.append_nil]
      exact ⟨hkeep.1.trans htrack.count,fun time ht => hkeep.2.trans (htrack.last time ht)⟩
  · have hij' : i ≠ j := fun he => hij he.symm
    rw [Function.update_of_ne hij'] at hx'
    have hcall : redisCall i s (j,a) = none := by
      unfold redisCall
      split
      · rename_i heq
        cases heq
        exact if_neg hij
      · rfl
    rw [hcall,Option.toList_none,List.append_nil]
    exact h x' hx'

theorem redisCalls_cons (hn : system.next s a = some t) :
    redisCalls i s (a :: as) = (redisCall i s a).toList ++ redisCalls i t as := by
  simp [redisCalls,hn]

theorem redisCalls_length_le (i : ι) (s : State ι) (as : List (ι × Act)) :
    (redisCalls i s as).length ≤ as.length := by
  induction as generalizing s with
  | nil => exact Nat.le_refl 0
  | cons a as ih =>
    have hone : (redisCall i s a).toList.length ≤ 1 := by
      cases redisCall i s a <;> simp
    have hrest : ((system.next s a).elim [] fun t => redisCalls i t as).length ≤ as.length := by
      cases system.next s a with
      | none => exact Nat.zero_le _
      | some t => exact ih t
    simp only [redisCalls,List.length_append,List.length_cons]
    omega

theorem Tracks.run (h : ∀ x ∈ s.instances i, Tracks calls x) (hr : system.Run s as t) :
    ∀ x ∈ t.instances i, Tracks (calls ++ redisCalls i s as) x := by
  induction hr generalizing calls with
  | nil s => simpa [redisCalls] using h
  | cons hn hr ih =>
    rw [redisCalls_cons hn,← List.append_assoc]
    exact ih (Tracks.next h hn)

/-- A call of `EnqueueHandler` is answered 503 with Redis untouched. -/
def Refused (m : Member) (s t : State ι) : Prop := t.world = s.world.respond m systemBusy

/-- In a run from `s`, a call of `EnqueueHandler` in process `i` passes the breaker or is
refused, in the step from `u` to `v`, after `calls` have reached Redis. -/
structure Visit (i : ι) (s : State ι) (as : List (ι × Act)) (calls : List RedisCall) (m : Member)
    (now : Int) (u v : State ι) : Prop where
  step : ∃ bs net code cs, as = bs ++ (i,.handle (.check m) net code now) :: cs ∧
    system.Run s bs u ∧ system.next u (i,.handle (.check m) net code now) = some v ∧
    calls = redisCalls i s bs

structure FollowsRule (i : ι) (s : State ι) (as : List (ι × Act)) : Prop where
  rule : ∀ {calls m now u v}, Visit i s as calls m now u v → (Refused m u v ↔ Tripped calls now)
  closes : ∀ {calls time m now u v}, Visit i s as (calls ++ [⟨true,time⟩]) m now u v →
    ¬ Refused m u v
  reopens : ∀ {calls time m now u v}, Visit i s as (calls ++ [⟨false,time⟩]) m now u v →
    redisFailureThreshold.toNat ≤ failuresInARow calls →
      (Refused m u v ↔ now - time < circuitDuration)

theorem World.respond_ne (w : World) (m : Member) (r : Response) : w ≠ w.respond m r := by
  intro h
  have hlen := congrArg (fun w => w.answers.length) h
  simp [World.respond] at hlen

theorem Visit.refused_iff {m : Member} {now : Int} {u v : State ι} (hs : system.init s)
    (hv : Visit i s as calls m now u v) (hfew : failuresInARow calls < 2^32) :
    Refused m u v ↔ redisFailureThreshold.toNat < failuresInARow calls ∧
      ∃ time ∈ latestFailure calls, unix now - unix time < redisCircuitDuration := by
  obtain ⟨bs,net,code,cs,-,hrun,hn,hcalls⟩ := hv.step
  obtain ⟨x,y,hx,hstep,-⟩ := State.next_cases hn
  have htrack : Tracks calls x := by
    have hstart : ∀ x ∈ s.instances i, Tracks [] x := by
      obtain ⟨_,_,_,rfl⟩ := hs
      intro x hx
      cases hx
      exact ⟨rfl,nofun⟩
    rw [hcalls]
    exact Tracks.run hstart hrun x hx
  have hworld : v.world = u.world.respond m systemBusy ↔
      x.redisFailureCount > redisFailureThreshold ∧
        unix now - x.redisLastFailure < redisCircuitDuration := by
    generalize v.world = w at hstep
    cases Instance.next_cases hstep with
    | @handle hd x' net code now called =>
      subst called
      simp only [Instance.handle,Instance.goto]
      split
      · exact ⟨fun _ => ‹_›,fun _ => rfl⟩
      · rename_i hclosed
        exact ⟨fun h => absurd h (u.world.respond_ne m systemBusy),fun h => absurd h hclosed⟩
  have hcount : x.redisFailureCount > redisFailureThreshold ↔
      redisFailureThreshold.toNat < failuresInARow calls := by
    rw [htrack.count,gt_iff_lt,UInt32.lt_iff_toNat_lt,UInt32.toNat_ofNat_of_lt' hfew]
  rw [Refused,hworld,hcount]
  refine and_congr_right fun hlt => ?_
  obtain ⟨time,htime⟩ := exists_latestFailure (Nat.zero_lt_of_lt hlt)
  rw [htime,htrack.last time htime]
  simp

theorem Visit.rule_iff {m : Member} {now : Int} {u v : State ι} (hs : system.init s)
    (hv : Visit i s as calls m now u v) (hfew : failuresInARow calls < 2^32) :
    (Refused m u v ↔ Tripped calls now) ↔ ¬ Missed calls now := by
  rw [hv.refused_iff hs hfew]
  constructor
  · rintro hrule ⟨htripped,hmissed⟩
    obtain ⟨hlt,time,htime,hage⟩ := hrule.mpr htripped
    rcases hmissed with heq | ⟨time',htime',hold⟩
    · omega
    · obtain rfl : time = time' := Option.some.inj (htime.symm.trans htime')
      omega
  · intro hmissed
    constructor
    · rintro ⟨hlt,time,htime,hage⟩
      exact ⟨Nat.le_of_lt hlt,time,htime,age_of_unix hage⟩
    · intro htripped
      have ⟨hle,time,htime,_⟩ := htripped
      refine ⟨Nat.lt_of_le_of_ne hle fun heq => hmissed ⟨htripped,.inl heq.symm⟩,time,htime,?_⟩
      by_contra hold
      exact hmissed ⟨htripped,.inr ⟨time,htime,by omega⟩⟩

/-- The breaker follows its rule in a run exactly where no call comes when it should be
open and is not. -/
theorem breaker_follows_rule (hs : system.init s)
    (hfew : ∀ bs, bs <+: as → failuresInARow (redisCalls i s bs) < 2^32) :
    FollowsRule i s as ↔
      ∀ {calls m now u v}, Visit i s as calls m now u v → ¬ Missed calls now := by
  have hlt : ∀ {calls m now u v}, Visit i s as calls m now u v → failuresInARow calls < 2^32 := by
    intro calls m now u v hv
    obtain ⟨bs,net,code,cs,rfl,-,-,rfl⟩ := hv.step
    exact hfew bs (List.prefix_append _ _)
  constructor
  · intro h calls m now u v hv
    exact (hv.rule_iff hs (hlt hv)).mp (h.rule hv)
  · intro h
    have hrule : ∀ {calls m now u v}, Visit i s as calls m now u v →
        (Refused m u v ↔ Tripped calls now) := fun hv => (hv.rule_iff hs (hlt hv)).mpr (h hv)
    refine ⟨hrule,fun hv hrefused => ?_,fun hv hle => (hrule hv).trans ?_⟩
    · obtain ⟨hle,-⟩ := (hrule hv).mp hrefused
      rw [failuresInARow_success] at hle
      exact absurd hle (by decide)
    · simp only [Tripped,failuresInARow_failure,latestFailure_failure,Option.mem_some,
        exists_eq_left',and_iff_right_iff_imp]
      exact fun _ => Nat.le_succ_of_le hle

def checkTime (i : ι) : ι × Act → Option Int
  | (j,.handle (.check _) _ _ now) => if j = i then some now else none
  | _ => none

/-- A trace is tested at the places of its checks. -/
theorem Visit.not_missed {m : Member} {now : Int} {u v : State ι} (hv : Visit i s as calls m now u v)
    (h : ∀ k < as.length, ∀ now ∈ as[k]?.bind (checkTime i), ¬ Missed (redisCalls i s (as.take k)) now) :
    ¬ Missed calls now := by
  obtain ⟨bs,net,code,cs,rfl,-,-,rfl⟩ := hv.step
  have hmissed := h bs.length (by simp) now (by simp [checkTime])
  rwa [List.take_left' rfl] at hmissed

end Breaker

def failingVisit (now : Int) : List (Unit × Act) :=
  [((),.receive sale),((),.handle (.check sale) .failed 0 now),
    ((),.handle (.deduct sale) .failed 0 now)]

def fiveFailures : List (Unit × Act) := (List.replicate 5 (failingVisit 0)).flatten

def sixthVisit : List (Unit × Act) := fiveFailures ++ failingVisit 0

def afterFive : State Unit :=
  (system.exec warmStart (fiveFailures ++ [((),.receive sale)])).get (by decide +kernel)

def sixthPasses : State Unit :=
  (system.next afterFive ((),.handle (.check sale) .failed 0 0)).get (by decide +kernel)

/-- Five failures in a row do not open the breaker. -/
theorem breaker_opens_late : system.init (warmStart : State Unit) ∧
    (system.exec warmStart sixthVisit).isSome ∧ ¬ FollowsRule () warmStart sixthVisit := by
  refine ⟨⟨_,_,_,rfl⟩,by decide +kernel,fun h => ?_⟩
  have hvisit : Visit () warmStart sixthVisit (List.replicate 5 ⟨false,0⟩) sale 0 afterFive
      sixthPasses :=
    ⟨_,_,_,_,rfl,System.run_of_exec (Option.some_get _).symm,(Option.some_get _).symm,
      by decide +kernel⟩
  have hrefused := (h.rule hvisit).mpr ⟨by decide,0,rfl,by decide⟩
  have hanswers := congrArg (fun w => w.answers.length) hrefused
  revert hanswers
  decide +kernel

/-- Five failures and, six seconds later, a sixth; a call one second after it, and one six
seconds after it that Redis answers. -/
def recoveryRun : List (Unit × Act) :=
  fiveFailures ++ failingVisit 6000000 ++
    [((),.receive sale),((),.handle (.check sale) .answered 0 7000000)] ++
    [((),.receive sale),((),.handle (.check sale) .answered 0 12000000),
      ((),.handle (.deduct sale) .answered 0 12000000)]

def recovered : State Unit := (system.exec warmStart recoveryRun).get (by decide +kernel)

/-- The breaker opens after the six failures, refuses one call and closes with the success. -/
theorem breaker_follows_rule_recovered : system.Run warmStart recoveryRun recovered ∧
    recovered.world.answers.map (·.2) = List.replicate 6 systemError ++ [systemBusy] ∧
    (recovered.instances ()).map (·.redisFailureCount) = some 0 ∧
    FollowsRule () warmStart recoveryRun := by
  refine ⟨System.run_of_exec (Option.some_get _).symm,by decide +kernel,by decide +kernel,?_⟩
  have hfew : ∀ bs, bs <+: recoveryRun →
      failuresInARow (redisCalls () warmStart bs) ≤ 23 := fun bs hbs =>
    ((failuresInARow_le _).trans (redisCalls_length_le _ _ _)).trans hbs.length_le
  refine (breaker_follows_rule ⟨_,_,_,rfl⟩ fun bs hbs =>
    Nat.lt_of_le_of_lt (hfew bs hbs) (by decide)).mpr fun hv => hv.not_missed ?_
  decide +kernel

end Flashsale.Backend
