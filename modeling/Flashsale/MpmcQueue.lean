import Flashsale.Ring
import Flashsale.SizeT
import Flashsale.Transition
set_option autoImplicit false

/-!
`MpmcQueue<T>`, one step for each atomic load, compare-exchange and store and
for each plain access to `cell->data`, under sequential consistency. The steps
are taken by calls: a thread that calls the queue several times is several
calls in turn, and a call ends at its return.
-/

namespace Flashsale.MpmcQueue

structure Cell (W T : Type) where
  sequence : W
  data : T

/-- Where a call stands: the access it makes next, with its local variables.
A call that returned keeps what it returned, and the ticket it won. -/
inductive Pc (W T : Type) where
  | idle
  | enqLoadPos (data : T)
  | enqLoadSeq (data : T) (pos : W)
  | enqCas (data : T) (pos : W)
  | enqWrite (data : T) (pos : W)
  | enqStoreSeq (data : T) (pos : W)
  | enqReturn (data : T) (won : Option W)
  | deqLoadPos
  | deqLoadSeq (pos : W)
  | deqCas (pos : W)
  | deqRead (pos : W)
  | deqStoreSeq (pos : W) (data : T)
  | deqReturn (won : Option (W × T))
  deriving DecidableEq

/-- The ticket and the value of an enqueue past its compare-exchange. -/
def Pc.enqueued {W T : Type} : Pc W T → Option (W × T)
  | .enqWrite data pos | .enqStoreSeq data pos | .enqReturn data (some pos) => some (pos,data)
  | _ => none

def Pc.dequeued {W T : Type} : Pc W T → Option W
  | .deqRead pos | .deqStoreSeq pos _ | .deqReturn (some (pos,_)) => some pos
  | _ => none

/-- `tickets` and `takers` are history: who won each enqueue ticket with which
value, and who won each dequeue ticket. No step reads them. -/
structure State (W T ι : Type) where
  buffer : Nat → Cell W T
  mask : W
  enqueuePos : W
  dequeuePos : W
  pc : ι → Pc W T
  tickets : List (ι × T)
  takers : List ι

open SizeT
variable {W T ι : Type} [DecidableEq ι]

def State.goto (q : State W T ι) (c : ι) (p : Pc W T) : State W T ι :=
  { q with pc := Function.update q.pc c p }

@[simp] theorem State.goto_pc_self (q : State W T ι) (c : ι) (p : Pc W T) :
    (q.goto c p).pc c = p := by simp [goto]

theorem State.goto_pc_of_ne {q : State W T ι} {c c' : ι} {p : Pc W T} (h : c' ≠ c) :
    (q.goto c p).pc c' = q.pc c' := by simp [goto,h]

variable [SizeT W]

/-- The constructor; `none` where it throws. -/
def create [Inhabited T] (capacity : W) : Option (State W T ι) :=
  if val capacity < 2 ∨ val (capacity &&& (capacity - 1)) ≠ 0 then none
  else some {
    buffer := fun i => ⟨ofNat i,default⟩
    mask := capacity - 1
    enqueuePos := ofNat 0
    dequeuePos := ofNat 0
    pc := fun _ => .idle
    tickets := []
    takers := [] }

def State.slot (q : State W T ι) (pos : W) : Nat := val (pos &&& q.mask)

def State.storeSeq (q : State W T ι) (pos seq : W) : State W T ι :=
  let i := q.slot pos
  { q with buffer := Function.update q.buffer i { q.buffer i with sequence := seq } }

def State.writeData (q : State W T ι) (pos : W) (data : T) : State W T ι :=
  let i := q.slot pos
  { q with buffer := Function.update q.buffer i { q.buffer i with data := data } }

def State.winEnqueue (q : State W T ι) (c : ι) (data : T) (pos : W) : State W T ι :=
  { q with enqueuePos := pos + 1, tickets := q.tickets ++ [(c,data)] }

def State.winDequeue (q : State W T ι) (c : ι) (pos : W) : State W T ι :=
  { q with dequeuePos := pos + 1, takers := q.takers ++ [c] }

def size (head tail : W) : Nat := if val tail < val head then 0 else val (tail - head)

variable [DecidableEq W]

/-- The next access of call `c`. `spurious` lets `compare_exchange_weak` fail on
an equal value; a failed one leaves the value it saw in `pos`. -/
def State.step (q : State W T ι) (c : ι) (spurious : Bool) : Option (State W T ι) :=
  match q.pc c with
  | .enqLoadPos data => some (q.goto c (.enqLoadSeq data q.enqueuePos))
  | .enqLoadSeq data pos =>
      let d := dif (q.buffer (q.slot pos)).sequence pos
      some (q.goto c
        (if d = 0 then .enqCas data pos
         else if d < 0 then .enqReturn data none
         else .enqLoadPos data))
  | .enqCas data pos =>
      if q.enqueuePos = pos ∧ spurious = false then
        some ((q.winEnqueue c data pos).goto c (.enqWrite data pos))
      else some (q.goto c (.enqLoadSeq data q.enqueuePos))
  | .enqWrite data pos => some ((q.writeData pos data).goto c (.enqStoreSeq data pos))
  | .enqStoreSeq data pos =>
      some ((q.storeSeq pos (pos + 1)).goto c (.enqReturn data (some pos)))
  | .deqLoadPos => some (q.goto c (.deqLoadSeq q.dequeuePos))
  | .deqLoadSeq pos =>
      let d := dif (q.buffer (q.slot pos)).sequence (pos + 1)
      some (q.goto c
        (if d = 0 then .deqCas pos
         else if d < 0 then .deqReturn none
         else .deqLoadPos))
  | .deqCas pos =>
      if q.dequeuePos = pos ∧ spurious = false then
        some ((q.winDequeue c pos).goto c (.deqRead pos))
      else some (q.goto c (.deqLoadSeq q.dequeuePos))
  | .deqRead pos => some (q.goto c (.deqStoreSeq pos (q.buffer (q.slot pos)).data))
  | .deqStoreSeq pos data =>
      some ((q.storeSeq pos (pos + q.mask + 1)).goto c (.deqReturn (some (pos,data))))
  | .idle | .enqReturn _ _ | .deqReturn _ => none

inductive Act (T ι : Type) where
  | enqueue (c : ι) (data : T)
  | dequeue (c : ι)
  | step (c : ι) (spurious : Bool)

def State.call (q : State W T ι) (c : ι) (p : Pc W T) : Option (State W T ι) :=
  match q.pc c with
  | .idle => some (q.goto c p)
  | _ => none

def State.next (q : State W T ι) : Act T ι → Option (State W T ι)
  | .enqueue c data => q.call c (.enqLoadPos data)
  | .dequeue c => q.call c .deqLoadPos
  | .step c spurious => q.step c spurious

def system [Inhabited T] (capacity : W) : Transition.System (State W T ι) (Act T ι) where
  init q := create capacity = some q
  next := State.next

end Flashsale.MpmcQueue
