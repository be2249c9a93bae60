import Segmented.Tree

/-! Linear search through a range of positions of a tree, from either end. The test may keep a
state of its own; it is asked once for each position passed, in order, and not after it has
answered yes. -/

namespace Segmented.Tree

variable {α S : Type}

/-- Tests up to `count` items from `index` upwards. -/
def scan (test : α → StateM S Bool) (items : Array α) (index : Nat) :
    Nat → StateM S (Option Nat)
  | 0 => pure none
  | count + 1 =>
    match items[index]? with
    | none => pure none
    | some x => do
      if ← test x then return some index else scan test items (index + 1) count

/-- Tests the items from `start + count - 1` downwards to `start`. -/
def scanBack (test : α → StateM S Bool) (items : Array α) (start : Nat) :
    Nat → StateM S (Option Nat)
  | 0 => pure none
  | count + 1 =>
    match items[start + count]? with
    | none => pure none
    | some x => do
      if ← test x then return some (start + count) else scanBack test items start count

/-- Asks the search of each tree in turn for its part of the range; the tree at position `p` of
its row starts at `p * width`. -/
def searchAcross {τ : Type} (search : Nat → Nat → τ → StateM S (Option Nat))
    (width start stop : Nat) : List (τ × Nat) → StateM S (Option Nat)
  | [] => pure none
  | (tree, position) :: rest => do
    let base := position * width
    match ← search (start - base) (stop - base) tree with
    | some found => return some (base + found)
    | none => searchAcross search width start stop rest

/-- The children that reach into the range, with their positions. -/
def overlapping {τ : Type} (width start stop : Nat) (children : Array τ) : List (τ × Nat) :=
  let first := start / width
  (children.extract first ((stop - 1) / width + 1)).toList.zipIdx first

/-- The first position from `start` below `stop` whose element passes the test. -/
def find (capacity : Nat) (test : α → StateM S Bool) :
    {level : Nat} → Nat → Nat → Tree α level → StateM S (Option Nat)
  | 0, start, stop, (buffer : Buffer α) =>
    scan test buffer.items start (min stop buffer.size - start)
  | level + 1, start, stop, (children : Array (Tree α level)) =>
    let width := span capacity level
    searchAcross (fun start stop child => find capacity test start stop child) width start stop
      (overlapping width start stop children)

/-- The last position from `start` below `stop` whose element passes the test. -/
def findLast (capacity : Nat) (test : α → StateM S Bool) :
    {level : Nat} → Nat → Nat → Tree α level → StateM S (Option Nat)
  | 0, start, stop, (buffer : Buffer α) =>
    scanBack test buffer.items start (min stop buffer.size - start)
  | level + 1, start, stop, (children : Array (Tree α level)) =>
    let width := span capacity level
    searchAcross (fun start stop child => findLast capacity test start stop child) width
      start stop (overlapping width start stop children).reverse

end Segmented.Tree
