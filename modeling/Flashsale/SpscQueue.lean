import Flashsale.Ring
import Flashsale.Transition
set_option autoImplicit false

/-!
`SpscQueue<T>`, one step for each load and store of an index and for each slot
copied, under sequential consistency. One producer and one consumer each make
one call after the other.
-/

namespace Flashsale.SpscQueue

inductive Producer (T : Type) where
  | idle
  | enqLoadTail (item : T)
  | enqLoadHead (item : T) (currentTail : Nat)
  | enqWrite (item : T) (currentTail : Nat)
  | enqStoreTail (item : T) (currentTail : Nat)
  | batchLoadTail (items : List T)
  | batchLoadHead (items : List T) (currentTail : Nat)
  /-- `i` items are copied; after the last one, `tail_` is stored. -/
  | batchCopy (items : List T) (currentTail i : Nat)
  | ret (ok : Bool)
  deriving DecidableEq

/-- Where the consumer stands in `try_dequeue` or `try_dequeue_batch`. A call
returns the items it wrote for the caller, none where it failed. -/
inductive Consumer (T : Type) where
  | idle
  | deqLoadHead
  | deqLoadTail (currentHead : Nat)
  | deqRead (currentHead : Nat)
  | deqStoreHead (currentHead : Nat) (item : T)
  | batchLoadHead (maxCount : Nat)
  | batchLoadTail (maxCount currentHead : Nat)
  /-- `items` are copied; when there are `count` of them, `head_` is stored. -/
  | batchCopy (maxCount currentHead count : Nat) (items : List T)
  | ret (items : List T)
  deriving DecidableEq

/-- `accepted` and `delivered` are history: the items published by a store of
`tail_` and those released by a store of `head_`. No step reads them. -/
structure State (T : Type) where
  buffer : Nat → T
  cells : Nat
  head : Nat
  tail : Nat
  producer : Producer T
  consumer : Consumer T
  accepted : List T
  delivered : List T

variable {T : Type}

/-- The constructor; one more cell than the capacity tells empty from full. -/
def create [Inhabited T] (capacity : Nat) : State T where
  buffer _ := default
  cells := capacity + 1
  head := 0
  tail := 0
  producer := .idle
  consumer := .idle
  accepted := []
  delivered := []

def freeSpace (cells currentHead currentTail : Nat) : Nat :=
  if currentHead > currentTail then currentHead - currentTail - 1
  else cells - (currentTail - currentHead) - 1

def available (cells currentHead currentTail : Nat) : Nat :=
  if currentTail ≥ currentHead then currentTail - currentHead
  else cells - currentHead + currentTail

/-- The cell of the `i`-th item of a batch: the first chunk runs to the end of
the buffer, the second from its start. -/
def chunkSlot (cells start count i : Nat) : Nat :=
  let firstChunk := min count (cells - start)
  if i < firstChunk then start + i else i - firstChunk

def State.write (q : State T) (i : Nat) (item : T) : State T :=
  { q with buffer := Function.update q.buffer i item }

def State.storeTail (q : State T) (tail : Nat) (items : List T) : State T :=
  { q with tail := tail, accepted := q.accepted ++ items, producer := .ret true }

def State.storeHead (q : State T) (head : Nat) (items : List T) : State T :=
  { q with head := head, delivered := q.delivered ++ items, consumer := .ret items }

def State.produce (q : State T) : Option (State T) :=
  match q.producer with
  | .enqLoadTail item => some { q with producer := .enqLoadHead item q.tail }
  | .enqLoadHead item t =>
      let nextTail := (t + 1) % q.cells
      some { q with producer := if nextTail = q.head then .ret false else .enqWrite item t }
  | .enqWrite item t => some { q.write t item with producer := .enqStoreTail item t }
  | .enqStoreTail item t => some (q.storeTail ((t + 1) % q.cells) [item])
  | .batchLoadTail items => some { q with producer := .batchLoadHead items q.tail }
  | .batchLoadHead items t =>
      some { q with producer :=
        if items.length > freeSpace q.cells q.head t then .ret false else .batchCopy items t 0 }
  | .batchCopy items t i =>
      match items[i]? with
      | some item =>
          some { q.write (chunkSlot q.cells t items.length i) item with
            producer := .batchCopy items t (i+1) }
      | none => some (q.storeTail ((t + items.length) % q.cells) items)
  | .idle | .ret _ => none

def State.consume (q : State T) : Option (State T) :=
  match q.consumer with
  | .deqLoadHead => some { q with consumer := .deqLoadTail q.head }
  | .deqLoadTail h =>
      some { q with consumer := if h = q.tail then .ret [] else .deqRead h }
  | .deqRead h => some { q with consumer := .deqStoreHead h (q.buffer h) }
  | .deqStoreHead h item => some (q.storeHead ((h + 1) % q.cells) [item])
  | .batchLoadHead maxCount => some { q with consumer := .batchLoadTail maxCount q.head }
  | .batchLoadTail maxCount h =>
      some { q with consumer :=
        if h = q.tail then .ret []
        else .batchCopy maxCount h (min (available q.cells h q.tail) maxCount) [] }
  | .batchCopy maxCount h count items =>
      if items.length < count then
        let item := q.buffer (chunkSlot q.cells h count items.length)
        some { q with consumer := .batchCopy maxCount h count (items ++ [item]) }
      else some (q.storeHead ((h + count) % q.cells) items)
  | .idle | .ret _ => none

inductive Act (T : Type) where
  | tryEnqueue (item : T)
  | tryEnqueueBatch (items : List T)
  | produce
  | tryDequeue
  | tryDequeueBatch (maxCount : Nat)
  | consume

def State.callProducer (q : State T) (p : Producer T) : Option (State T) :=
  match q.producer with
  | .idle | .ret _ => some { q with producer := p }
  | _ => none

def State.callConsumer (q : State T) (c : Consumer T) : Option (State T) :=
  match q.consumer with
  | .idle | .ret _ => some { q with consumer := c }
  | _ => none

def State.next (q : State T) : Act T → Option (State T)
  | .tryEnqueue item => q.callProducer (.enqLoadTail item)
  | .tryEnqueueBatch items => q.callProducer (.batchLoadTail items)
  | .produce => q.produce
  | .tryDequeue => q.callConsumer .deqLoadHead
  | .tryDequeueBatch maxCount => q.callConsumer (.batchLoadHead maxCount)
  | .consume => q.consume

def system [Inhabited T] (capacity : Nat) : Transition.System (State T) (Act T) where
  init q := q = create capacity
  next := State.next

/-- Thread-safe size approximation; exact where neither index moves between its loads. -/
def State.size (q : State T) : Nat :=
  if q.tail ≥ q.head then q.tail - q.head else q.cells - (q.head - q.tail)

def State.contents (q : State T) : List T :=
  (List.range q.size).map (fun k => q.buffer ((q.head + k) % q.cells))

def State.occupied (q : State T) : List Nat :=
  (List.range q.size).map (fun k => (q.head + k) % q.cells)

def State.fetched (q : State T) : List T :=
  match q.consumer with
  | .deqStoreHead _ item => [item]
  | .batchCopy _ _ _ items => items
  | _ => []

def State.writeSlot (q : State T) : Option Nat :=
  match q.producer with
  | .enqWrite _ t => some t
  | .batchCopy items t i =>
      if i < items.length then some (chunkSlot q.cells t items.length i) else none
  | _ => none

def State.readSlot (q : State T) : Option Nat :=
  match q.consumer with
  | .deqRead h => some h
  | .batchCopy _ h count items =>
      if items.length < count then some (chunkSlot q.cells h count items.length) else none
  | _ => none

end Flashsale.SpscQueue
