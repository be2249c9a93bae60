import Segmented.Failure

/-! An unstable sort in place: quicksort with a bounded number of rounds, heapsort where the bound
is used up, and insertion sort for short ranges. Every access is checked, so that a step outside
the array shows as an error. -/

namespace Segmented.Introsort

variable {α : Type}

def read (v : Array α) (index : Nat) : Except Error α :=
  match v[index]? with
  | some x => .ok x
  | none => .error (.indexOutOfRange index v.size)

/-- The element at `first` comes before the one at `second`. -/
def precedes (order : α → α → Ordering) (v : Array α) (first second : Nat) :
    Except Error Bool := do
  return order (← read v first) (← read v second) == .lt

def exchange (v : Array α) (first second : Nat) : Except Error (Array α) :=
  if inside : first < v.size ∧ second < v.size then
    .ok (v.swap first second inside.1 inside.2)
  else .error (.indexOutOfRange (max first second) v.size)

/-! ### Insertion sort -/

/-- Moves the element at `start + distance` down to its place among those before it. -/
def sink (order : α → α → Ordering) (start : Nat) : Nat → Array α → Except Error (Array α)
  | 0, v => pure v
  | distance + 1, v => do
    if ← precedes order v (start + distance + 1) (start + distance) then
      sink order start distance (← exchange v (start + distance + 1) (start + distance))
    else
      return v

/-- Sinks `count` elements in turn, the first of them at `start + distance`. -/
def sinkAll (order : α → α → Ordering) (start : Nat) :
    Nat → Nat → Array α → Except Error (Array α)
  | _, 0, v => pure v
  | distance, count + 1, v => do
    sinkAll order start (distance + 1) count (← sink order start distance v)

/-- Sorts the range from `start` below `stop` by insertion. -/
def insertionSort (order : α → α → Ordering) (start stop : Nat) (v : Array α) :
    Except Error (Array α) :=
  sinkAll order start 1 (stop - start - 1) v

/-! ### Heapsort -/

/-- Whether the right child of a node of the heap at `start` exists and is the larger one. -/
def prefersRight (order : α → α → Ordering) (start size left : Nat) (v : Array α) :
    Except Error Bool :=
  if left + 1 < size then precedes order v (start + left) (start + left + 1) else pure false

/-- Moves the element at `node` of the heap at `start` down until no child is larger. -/
def siftDown (order : α → α → Ordering) (start size node : Nat) (v : Array α) :
    Except Error (Array α) := do
  let left := 2 * node + 1
  if left < size then
    let child := left + (← prefersRight order start size left v).toNat
    if ← precedes order v (start + node) (start + child) then
      siftDown order start size child (← exchange v (start + node) (start + child))
    else
      return v
  else
    return v
termination_by size - node

/-- Sifts the first `count` nodes down, the last of them first. -/
def buildHeap (order : α → α → Ordering) (start size : Nat) :
    Nat → Array α → Except Error (Array α)
  | 0, v => pure v
  | count + 1, v => do
    buildHeap order start size count (← siftDown order start size count v)

/-- Moves the root behind a shrinking heap, `count` times. -/
def emptyHeap (order : α → α → Ordering) (start : Nat) :
    Nat → Array α → Except Error (Array α)
  | 0, v => pure v
  | count + 1, v => do
    let v ← exchange v start (start + (count + 1))
    emptyHeap order start count (← siftDown order start (count + 1) 0 v)

/-- Sorts the range from `start` below `stop` through a heap. -/
def heapsort (order : α → α → Ordering) (start stop : Nat) (v : Array α) :
    Except Error (Array α) := do
  let size := stop - start
  emptyHeap order start (size - 1) (← buildHeap order start size (size / 2) v)

/-! ### Quicksort -/

/-- The position of the median of three elements. -/
def medianOfThree (order : α → α → Ordering) (v : Array α) (a b c : Nat) :
    Except Error Nat := do
  if ← precedes order v a b then
    if ← precedes order v b c then return b
    else if ← precedes order v a c then return c
    else return a
  else if ← precedes order v a c then return a
  else if ← precedes order v b c then return c
  else return b

/-- Exchanges elements across the range from `left` to `right` until those before the element at
`pivot` stand in front; answers the position of the last of them. -/
def partitionAround (order : α → α → Ordering) (pivot left right : Nat) (v : Array α) :
    Except Error (Nat × Array α) := do
  if left ≤ right then
    if ← precedes order v left pivot then
      partitionAround order pivot (left + 1) right v
    else
      match same : right with
      | 0 => throw (.indexOutOfRange 0 v.size)
      | below + 1 =>
        if ← precedes order v (below + 1) pivot then
          partitionAround order pivot (left + 1) below (← exchange v left (below + 1))
        else
          partitionAround order pivot left below v
  else
    return (right, v)
termination_by right + 1 - left
decreasing_by all_goals omega

/-- Splits the range from `start` below `stop` around its first element, and answers where that
element ends up. -/
def partition (order : α → α → Ordering) (start stop : Nat) (v : Array α) :
    Except Error (Nat × Array α) := do
  let (middle, v) ← partitionAround order start (start + 1) (stop - 1) v
  return (middle, ← exchange v start middle)

/-- The longest range that is sorted by insertion. -/
def insertionLimit : Nat := 20

/-- Sorts the range from `start` below `stop`, the shorter part of each split first, with at most
`rounds` splits on the way to any part. -/
def sortRange (order : α → α → Ordering) :
    Nat → Nat → Nat → Array α → Except Error (Array α)
  | rounds, start, stop, v =>
    if stop - start ≤ insertionLimit then insertionSort order start stop v
    else
      match rounds with
      | 0 => heapsort order start stop v
      | rounds + 1 => do
        let pivot ← medianOfThree order v start (start + (stop - start) / 2) (stop - 1)
        let (middle, v) ← partition order start stop (← exchange v start pivot)
        if middle - start < stop - middle - 1 then
          let v ← sortRange order rounds start middle v
          sortRange order rounds (middle + 1) stop v
        else
          let v ← sortRange order rounds (middle + 1) stop v
          sortRange order rounds start middle v

/-- Sorts the array, with twice as many rounds as its length has binary digits. -/
def sort (order : α → α → Ordering) (v : Array α) : Except Error (Array α) :=
  if v.size < 2 then .ok v else sortRange order (2 * (v.size.log2 + 1)) 0 v.size v

end Segmented.Introsort
