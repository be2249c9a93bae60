import Segmented.Order.Introsort
import Segmented.Sequence.Clear
import Segmented.Sequence.Splice

/-! Sorting and reversal. A sequence in one segment is sorted where it is. A deeper one is rebuilt
from its sorted elements when the sort has to be stable, and sorted in place when not. -/

namespace Segmented

/-- The listed elements in order. Of any two, the later one comes to stand before the other only if
it is less. -/
def stableSort {α : Type} (order : α → α → Ordering) (xs : List α) : List α :=
  xs.mergeSort fun x y => (order y x).isGE

namespace Sequence

variable {σ α : Type} [Allocator σ α]

/-- Takes all elements out and gives each buffer back once it is empty. -/
def takeAll (s : Sequence α) : Depot.Step σ (List α × Sequence α) := do
  let elements := s.toList
  s.segments.forM fun buffer => Depot.reclaim buffer.cleared s.options.clearsOnReturn
  return (elements, { s with root := none, tail := none, length := 0 })

/-- Sorts a deep sequence by building it anew. -/
def sortRebuilt (order : α → α → Ordering) (s : Sequence α) : Depot.Step σ (Sequence α) := do
  let version := s.version
  let (elements, s) ← s.takeAll
  Depot.notify (.sortingRebuilt elements.length)
  let s ← s.extend (stableSort order elements)
  return { s with version }

/-- Sorts the elements; equal ones keep their places relative to each other. -/
def sort (order : α → α → Ordering) (s : Sequence α) : Depot.Step σ (Sequence α) := do
  match s.flat? with
  | some items => return (s.refill (stableSort order items.toList).toArray).bump
  | none => return (← s.sortRebuilt order).bump

/-- Sorts the elements without a promise about equal ones, and without new storage. -/
def sortUnstable (order : α → α → Ordering) (s : Sequence α) : Depot.Step σ (Sequence α) := do
  match s.flat? with
  | some items => return (s.refill (stableSort order items.toList).toArray).bump
  | none =>
    match Introsort.sort order s.toArray with
    | .ok sorted => return (s.refill sorted).bump
    | .error error =>
      Depot.notify (.breach error)
      return s.bump

/-- Turns the order of the elements around. -/
def reverse (s : Sequence α) : Sequence α := (s.refill s.toArray.reverse).bump

end Sequence

end Segmented
