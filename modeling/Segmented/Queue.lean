import Segmented.Failure
import Segmented.Sequence.Clear
import Segmented.Sequence.Splice
import Segmented.Traversal.Walk

/-! A first-in first-out queue over a sequence of slots. Slots before the head are vacant; the
storage goes back as soon as the queue is empty. -/

namespace Segmented

/-- Slots, of which the first `head` have been served. -/
structure Queue (α : Type) where
  slots : Sequence (Option α) := {}
  head : Nat := 0

namespace Queue

variable {σ α : Type} [Allocator σ (Option α)]

/-- An empty queue whose slots are kept as the options say. -/
def withOptions (options : Options) : Queue α := { slots := { options } }

def length (queue : Queue α) : Nat := queue.slots.length - queue.head

def isEmpty (queue : Queue α) : Bool := queue.length == 0

/-- The waiting elements, the oldest first. -/
def toList (queue : Queue α) : List α := (queue.slots.toList.drop queue.head).filterMap id

/-- The oldest waiting element. -/
def peek (queue : Queue α) : Except Error α :=
  match queue.slots.get? queue.head with
  | some (some x) => .ok x
  | _ => .error .empty

def enqueue (x : α) : Queue α → Depot.Step σ (Queue α)
  | { slots, head } => do return { slots := ← slots.push (some x), head }

/-- Adds the listed elements one by one. -/
def extend (xs : List α) (queue : Queue α) : Depot.Step σ (Queue α) :=
  xs.foldlM (fun queue x => queue.enqueue x) queue

/-- Drops all waiting elements and gives the storage back. -/
def clear (queue : Queue α) : Depot.Step σ (Queue α) := do
  return { slots := ← queue.slots.clear, head := 0 }

/-- Moves the head past the oldest waiting element and leaves its slot vacant. -/
def vacate : Queue α → Queue α
  | { slots, head } => { slots := slots.modify head fun _ => none, head := head + 1 }

/-- Serves the oldest waiting element. -/
def dequeue (queue : Queue α) : Depot.Step σ (Except Error α × Queue α) := do
  if queue.isEmpty then
    return (.error .empty, queue)
  else
    let served := queue.peek
    let queue := queue.vacate
    if queue.isEmpty then
      return (served, ← queue.clear)
    else
      return (served, queue)

/-- Serves up to `count` elements; answers the error that stopped it early. -/
def dequeueMany (queue : Queue α) (count : Nat) :
    Depot.Step σ (List α × Option Error × Queue α) :=
  go count [] queue
where
  go : Nat → List α → Queue α → Depot.Step σ (List α × Option Error × Queue α)
    | 0, taken, queue => pure (taken.reverse, none, queue)
    | count + 1, taken, queue => do
      match ← queue.dequeue with
      | (.error error, queue) => return (taken.reverse, some error, queue)
      | (.ok x, queue) => go count (x :: taken) queue

/-- Gives back what a queue holds that is no longer wanted. -/
def discard (queue : Queue α) : Depot.Step σ Unit := queue.slots.discard

end Queue

end Segmented
