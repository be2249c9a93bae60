import Segmented.Buffer
import Segmented.Depot
import Segmented.Options

/-! One segment and its storage: growth by doubling, and the return of a buffer as soon as it
holds nothing. A full segment is never asked to take an element; being asked is a breach. -/

namespace Segmented.Buffer

variable {σ α : Type} [Allocator σ α]

/-- The segment holds all that the options allow. -/
def isFull (options : Options) (buffer : Buffer α) : Bool :=
  options.segmentCapacity ≤ buffer.size

/-- Rents for `asked` elements, at most a segment; nothing is rented for none. -/
def start (options : Options) (asked : Nat) : Depot.Step σ (Buffer α) :=
  let capacity := min asked options.segmentCapacity
  if capacity = 0 then pure {} else Depot.rent capacity

/-- Moves the elements to a buffer of the given capacity, then returns the outgrown one. -/
def regrow (options : Options) (capacity : Nat) (buffer : Buffer α) :
    Depot.Step σ (Buffer α) := do
  let grown ← Depot.rent capacity
  Depot.reclaim buffer.cleared options.clearsOnReturn
  return { grown with items := grown.items ++ buffer.items }

/-- Doubles the storage, up to a segment, when all of it is taken. -/
def makeRoom (options : Options) (buffer : Buffer α) : Depot.Step σ (Buffer α) :=
  if buffer.size < buffer.capacity then pure buffer
  else buffer.regrow options (min (max (2 * buffer.capacity) 2) options.segmentCapacity)

/-- Returns the storage if nothing is left in it. What stays behind has no storage, and so, as
elements take up room, no capacity to be returned once more. -/
def settle (options : Options) (buffer : Buffer α) : Depot.Step σ (Buffer α) := do
  if buffer.isEmpty then
    Depot.reclaim buffer options.clearsOnReturn
    return {}
  else
    return buffer

def push (options : Options) (x : α) (buffer : Buffer α) : Depot.Step σ (Buffer α) := do
  if buffer.isFull options then
    Depot.notify (.breach (.capacityExceeded options.segmentCapacity))
    return buffer
  else
    let buffer ← buffer.makeRoom options
    return { buffer with items := buffer.items.push x }

def insert (options : Options) (index : Nat) (x : α) (buffer : Buffer α) :
    Depot.Step σ (Buffer α) := do
  if buffer.isFull options then
    Depot.notify (.breach (.capacityExceeded options.segmentCapacity))
    return buffer
  else if buffer.size < index then
    Depot.notify (.breach (.indexOutOfRange index buffer.size))
    return buffer
  else
    let buffer ← buffer.makeRoom options
    return { buffer with items := buffer.items.insertIdxIfInBounds index x }

/-- Takes the element at `index` out and closes the gap. -/
def removeAt (options : Options) (index : Nat) (buffer : Buffer α) :
    Depot.Step σ (Option α × Buffer α) := do
  match buffer.items[index]? with
  | none =>
    Depot.notify (.breach (.indexOutOfRange index buffer.size))
    return (none, buffer)
  | some x =>
    let buffer := { buffer with items := buffer.items.eraseIdxIfInBounds index }
    return (some x, ← buffer.settle options)

/-- Takes the last element out and keeps the storage. -/
def popKeeping (buffer : Buffer α) : Option α × Buffer α :=
  (buffer.items.back?, { buffer with items := buffer.items.pop })

/-- Stores `x` in place of the last element. -/
def replaceLast (x : α) (buffer : Buffer α) : Buffer α :=
  { buffer with items := buffer.items.modify (buffer.size - 1) fun _ => x }

/-- Takes the last element out. -/
def pop (options : Options) (buffer : Buffer α) : Depot.Step σ (Option α × Buffer α) := do
  match buffer.items.back? with
  | none => return (none, buffer)
  | some x =>
    let buffer := { buffer with items := buffer.items.pop }
    return (some x, ← buffer.settle options)

/-- Drops all but the first `length` elements. -/
def truncate (options : Options) (length : Nat) (buffer : Buffer α) :
    Depot.Step σ (Buffer α) :=
  { buffer with items := buffer.items.shrink length }.settle options

/-- Adds `count` copies of `x`, growing to exactly what they need. -/
def fill (options : Options) (count : Nat) (x : α) (buffer : Buffer α) :
    Depot.Step σ (Buffer α) := do
  let target := buffer.size + count
  if options.segmentCapacity < target then
    Depot.notify (.breach (.capacityExceeded options.segmentCapacity))
    return buffer
  else
    let buffer ← if buffer.capacity < target then buffer.regrow options target else pure buffer
    return { buffer with items := buffer.items ++ Array.replicate count x }

end Segmented.Buffer
